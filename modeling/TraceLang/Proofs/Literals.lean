/-
# TraceLang.Proofs.Literals — displayed lists read back equal

The text of a list without cycles is itself an expression of the language, with some
exceptions: the least integer, floating-point numbers, and characters beyond the plain
ones. Its tree (`Snapshot`) has a literal, the expression whose text is the text of the
list (`Acyclic.text_eq`), where a negative number is written with an operator. The
literal is legible and no deeper than the list, so the text is read as this expression.
Evaluating an expression that is the literal of a tree, apart from places, gives a new
value with this tree (`eval_literal`), and values with the same tree are equal. Together
this is `text_readsBack_equal`.
-/
import TraceLang.Proofs.Exactness
import TraceLang.Proofs.Syntax.ReadingBack
import TraceLang.Proofs.Unfolding

namespace TraceLang

set_option autoImplicit false

namespace Snapshot

/-! ## Literals -/

mutual

/-- The expression that writes the tree. There are no negative literals, so the number is
written without its sign and negated. -/
def literal : Snapshot → Expr
  | .none => .none {}
  | .int n => if n.toInt < 0 then .unary {} .neg (.int {} (Int64.ofInt (-n.toInt))) else .int {} n
  | .float x => .float {} x
  | .bool b => .bool {} b
  | .str s => .str {} s
  | .list items => .list {} (literalAll items)

def literalAll : List Snapshot → List Expr
  | [] => []
  | item :: rest => item.literal :: literalAll rest

end

mutual

/-- Whether the literal of the tree reads back. -/
def isWritable : Snapshot → Bool
  | .int n => n ≠ Int64.minValue
  | .float _ => false
  | .str s => s.toList.all Lexer.isPlain
  | .list items => allWritable items
  | .none | .bool _ => true

def allWritable : List Snapshot → Bool
  | [] => true
  | item :: rest => item.isWritable && allWritable rest

end

mutual

/-- The number of lists around the innermost value, or around nothing. -/
def depth : Snapshot → Nat
  | .list items => depthAll items + 1
  | _ => 0

def depthAll : List Snapshot → Nat
  | [] => 0
  | item :: rest => max item.depth (depthAll rest)

end

theorem literalAll_eq_map (items : List Snapshot) : literalAll items = items.map literal := by
  induction items with
  | nil => rfl
  | cons item rest ih => rw [literalAll, ih, List.map_cons]

mutual

theorem legible_literal : (t : Snapshot) → t.literal.legible
  | .int n => by
    rw [literal]
    split <;> simp [Expr.legible, Expr.isNegation]
  | .list items => by
    rw [literal, Expr.legible]
    exact legible_literalAll items
  | .none | .float _ | .bool _ | .str _ => by simp [literal, Expr.legible]

theorem legible_literalAll : (ts : List Snapshot) → Expr.itemsLegible (literalAll ts)
  | [] => rfl
  | t :: rest => by simp [literalAll, Expr.itemsLegible, legible_literal t, legible_literalAll rest]

end

mutual

/-- A negated number has one operator around it. -/
theorem height_literal : (t : Snapshot) → t.literal.height ≤ t.depth + 1
  | .int n => by
    rw [literal]
    split <;> simp [Expr.height, depth]
  | .list items => by
    have inside := height_literalAll items
    simp only [literal, Expr.height, depth]
    omega
  | .none | .float _ | .bool _ | .str _ => by simp [literal, Expr.height, depth]

theorem height_literalAll : (ts : List Snapshot) →
    Expr.itemsHeight (literalAll ts) ≤ depthAll ts + 1
  | [] => by simp [literalAll, Expr.itemsHeight]
  | t :: rest => by
    have first := height_literal t
    have others := height_literalAll rest
    simp only [literalAll, Expr.itemsHeight, depthAll]
    omega

end

end Snapshot

/-- All integers but the least can be negated. -/
theorem fits_neg {n : Int64} (other : n ≠ Int64.minValue) : fits (-n.toInt) := by
  have apart : n.toInt ≠ Int64.minValue.toInt := fun same => other (Int64.toInt_inj.mp same)
  obtain ⟨low, high⟩ := fits_iff.mp (fits_toInt n)
  rw [fits_iff]
  rw [Int64.toInt_minValue] at low apart ⊢
  rw [Int64.toInt_maxValue] at high ⊢
  omega

namespace Expr

theorem mem_itemsTokens {t : Token} : (es : List Expr) → t ∈ itemsTokens es →
    t = .symbol .comma ∨ ∃ e ∈ es, t ∈ e.tokens
  | [], member => by cases member
  | [e], member => .inr ⟨e, List.mem_singleton_self e, by rwa [itemsTokens] at member⟩
  | e :: e' :: rest, member => by
    rw [itemsTokens_more, List.mem_append, List.mem_cons] at member
    rcases member with inFirst | comma | inOthers
    · exact .inr ⟨e, List.mem_cons_self, inFirst⟩
    · exact .inl comma
    · refine (mem_itemsTokens (e' :: rest) inOthers).imp_right ?_
      rintro ⟨d, listed, inside⟩
      exact ⟨d, List.mem_cons_of_mem e listed, inside⟩

theorem itemsText_eq (es : List Expr) : itemsText es = ", ".intercalate (es.map text) := by
  induction es with
  | nil =>
    rw [itemsText]
    rfl
  | cons e others ih =>
    cases others with
    | nil =>
      rw [itemsText]
      rfl
    | cons e' rest =>
      simp only [itemsText_more, ih, List.map_cons, String.intercalate_cons_cons]

end Expr

namespace Snapshot

/-- The sign of a negative number is that of its text. -/
theorem text_literal_int {n : Int64} (other : n ≠ Int64.minValue) :
    (Snapshot.int n).literal.text = toString n.toInt := by
  rw [literal]
  split
  · next negative =>
    obtain ⟨k, value⟩ := Int.eq_negSucc_of_lt_zero negative
    have opposite : (Int64.ofInt (-n.toInt)).toInt = (k + 1 : Nat) := by
      rw [toInt_ofInt_of_fits (fits_neg other), value]
      rfl
    rw [Expr.text, Expr.enclose, if_neg (by simp [Expr.isBinary]), Expr.text, opposite, value]
    rfl
  · rw [Expr.text]

mutual

theorem spellable_literal : (t : Snapshot) → t.isWritable → ∀ s ∈ t.literal.tokens, s.Spellable
  | .int n, writable => by
    have other : n ≠ Int64.minValue := of_decide_eq_true writable
    rw [literal]
    split
    · next negative =>
      have opposite : 0 ≤ (Int64.ofInt (-n.toInt)).toInt := by
        rw [toInt_ofInt_of_fits (fits_neg other)]
        omega
      rw [Expr.tokens, Expr.encloseTokens, if_neg (by simp [Expr.isBinary]), Expr.tokens,
        List.forall_mem_cons, List.forall_mem_singleton]
      exact ⟨trivial, opposite⟩
    · next positive =>
      rw [Expr.tokens, List.forall_mem_singleton]
      exact Int.not_lt.mp positive
  | .str s, writable => by
    simpa [literal, Expr.tokens, Token.Spellable, isWritable] using writable
  | .list items, writable => by
    rw [literal, Expr.tokens, List.cons_append, List.forall_mem_cons, List.forall_mem_append,
      List.forall_mem_singleton]
    refine ⟨trivial, fun s member => ?_, trivial⟩
    rcases Expr.mem_itemsTokens _ member with rfl | ⟨e, listed, inside⟩
    · trivial
    · exact spellable_literalAll items writable e listed s inside
  | .none, _ | .bool _, _ => by simp [literal, Expr.tokens, Token.Spellable]

theorem spellable_literalAll : (ts : List Snapshot) → allWritable ts →
    ∀ e ∈ literalAll ts, ∀ s ∈ e.tokens, s.Spellable
  | [], _ => by simp [literalAll]
  | t :: rest, writable => by
    simp only [allWritable, Bool.and_eq_true] at writable
    rw [literalAll, List.forall_mem_cons]
    exact ⟨spellable_literal t writable.1, spellable_literalAll rest writable.2⟩

end

/-- The literal of a tree is read from its text. -/
theorem readsBack_literal {t : Snapshot} (writable : t.isWritable)
    (shallow : t.depth + 3 ≤ maxNesting) : t.literal.ReadsBack := by
  have height := t.height_literal
  exact t.literal.readsBack_of_legible (t.literal.spells (t.spellable_literal writable))
    t.legible_literal (by omega)

end Snapshot

namespace Heap

variable {h h' : Heap} {v w : Value} {l k : ListId}

/-! ## The text of a list is that of its literal -/

theorem Contains.inside_cases (contained : h.Contains (.list l) w) :
    w = .list l ∨ ∃ u ∈ h.values l, h.Contains u w := by
  rcases contained with same | ⟨k, reached, member⟩
  · exact .inl same
  · rcases reached.inside_cases with rfl | ⟨u, member', reached'⟩
    · exact .inr ⟨w, member, .self h w⟩
    · exact .inr ⟨u, member', .inr ⟨k, reached', member⟩⟩

mutual

/-- The scalars in a value are the leaves of its tree. -/
theorem Unfolds.isWritable {v : Value} {t : Snapshot} : h.HasTree v t → t.isWritable →
    ∀ w, h.Contains v w → w.isList = false → (leafSnapshot w).isWritable
  | .scalar isScalar, writable, w, contained, _ => by
    rcases contained with rfl | ⟨k, reached, -⟩
    · exact writable
    · exact absurd reached (not_reaches_of_scalar isScalar)
  | .items inside, writable, w, contained, isScalar => by
    rcases contained.inside_cases with rfl | ⟨u, member, contained'⟩
    · cases isScalar
    · exact inside.isWritable writable u member w contained' isScalar

theorem UnfoldsAll.isWritable {values : List Value} {ts : List Snapshot} :
    UnfoldsAll leafSnapshot .list h values ts → Snapshot.allWritable ts →
      ∀ v ∈ values, ∀ w, h.Contains v w → w.isList = false → (leafSnapshot w).isWritable
  | .nil, _ => by simp
  | .cons first others, writable => by
    simp only [Snapshot.allWritable, Bool.and_eq_true] at writable
    exact List.forall_mem_cons.mpr
      ⟨first.isWritable writable.1, others.isWritable writable.2⟩

end

theorem Unfolds.floatFree {t : Snapshot} (tree : h.HasTree v t) (writable : t.isWritable) :
    h.FloatFree v := by
  intro x contained
  have := tree.isWritable writable _ contained rfl
  cases this

theorem text_literal_leaf (scalar : v.isList = false) (writable : (leafSnapshot v).isWritable) :
    (leafSnapshot v).literal.text = leafText v := by
  cases v with
  | int n => exact Snapshot.text_literal_int (of_decide_eq_true writable)
  | list l => cases scalar
  | none | float | bool | str =>
    rw [leafSnapshot, Snapshot.literal, Expr.text]
    rfl

theorem text_literal_list (items : List Snapshot) :
    (Snapshot.list items).literal.text = bracketed (items.map (·.literal.text)) := by
  rw [Snapshot.literal, Expr.text, Expr.itemsText_eq, Snapshot.literalAll_eq_map, List.map_map]
  rfl

/-- The text of a list without cycles is the text of an expression. -/
theorem Acyclic.text_eq (acyclic : h.Acyclic (.list l))
    (writable : (h.snapshot (.list l)).isWritable) :
    h.text (.list l) = (h.snapshot (.list l)).literal.text := by
  have tree := acyclic.hasTree
  have written : Unfolds leafText bracketed h (.list l) (h.snapshot (.list l)).literal.text :=
    tree.map (f := fun t => t.literal.text) text_literal_list fun w contained scalar =>
      text_literal_leaf scalar (tree.isWritable writable w contained scalar)
  exact acyclic.unfolds_nestedText.unique written

/-! ## New lists and their trees -/

mutual

/-- A tree stays when the heap grows. -/
theorem Unfolds.grows {α : Type} {leaf : Value → α} {node : List α → α} (grows : h.Grows h')
    (grounded : h.Grounded) (wired : h.Wired) {v : Value} {a : α} :
    Unfolds leaf node h v a → v.Within h.lists.size → Unfolds leaf node h' v a
  | .scalar isScalar, _ => .scalar isScalar
  | .items inside, within => by
    refine .items ?_
    rw [grows.values (within _ rfl) (wired _)]
    exact inside.grows grows grounded wired (grounded.values _)

theorem UnfoldsAll.grows {α : Type} {leaf : Value → α} {node : List α → α} (grows : h.Grows h')
    (grounded : h.Grounded) (wired : h.Wired) {values : List Value} {as : List α} :
    UnfoldsAll leaf node h values as → (∀ v ∈ values, v.Within h.lists.size) →
      UnfoldsAll leaf node h' values as
  | .nil, _ => .nil
  | .cons first others, within => by
    obtain ⟨ofFirst, ofOthers⟩ := List.forall_mem_cons.mp within
    exact .cons (first.grows grows grounded wired ofFirst)
      (others.grows grows grounded wired ofOthers)

end

theorem read_allocAll (values : List Value) : ∀ (h : Heap) (cells : Array CellId),
    (∀ c ∈ cells, c.index < h.cells.size) →
    ((h.allocAll values cells).1.toList.map fun c => ((h.allocAll values cells).2.read c).value) =
      (cells.toList.map fun c => (h.read c).value) ++ values := by
  induction values with
  | nil => simp [allocAll]
  | cons v rest ih =>
    intro h cells valid
    have grows := grows_alloc h (.fresh v)
    have before : (cells.toList.map fun c => ((h.alloc (.fresh v)).2.read c).value) =
        cells.toList.map fun c => (h.read c).value :=
      List.map_congr_left fun c member => by
        rw [grows.cells c (valid c (Array.mem_toList_iff.mp member))]
    have last : ((h.alloc (.fresh v)).2.read (h.alloc (.fresh v)).1).value = v :=
      congrArg Variable.value (read_alloc_new h (.fresh v))
    rw [allocAll, ih _ _ (lt_size_alloc valid (.fresh v)), Array.toList_push, List.map_append,
      before, List.map_singleton, last, List.append_assoc]
    rfl

/-- The elements of a new list have the given values. -/
theorem values_newList (h : Heap) (values : List Value) :
    ∃ l, (h.newList values).1 = .list l ∧ (h.newList values).2.values l = values := by
  refine ⟨_, rfl, ?_⟩
  have read := read_allocAll values h #[] (by simp)
  simpa [newList, Heap.values, allocList, elements, Heap.read] using read

/-- From one heap a value with a certain tree was built in another. -/
structure Builds (h h' : Heap) (v : Value) (t : Snapshot) : Prop where
  grows : h.Grows h'
  grounded : h'.Grounded
  wired : h'.Wired
  within : v.Within h'.lists.size
  tree : h'.HasTree v t

/-- From one heap values with certain trees were built in another. -/
structure BuildsAll (h h' : Heap) (values : List Value) (ts : List Snapshot) : Prop where
  grows : h.Grows h'
  grounded : h'.Grounded
  wired : h'.Wired
  within : ∀ v ∈ values, v.Within h'.lists.size
  trees : UnfoldsAll leafSnapshot .list h' values ts

variable {t : Snapshot} {ts : List Snapshot} {values : List Value}

theorem builds_scalar (grounded : h.Grounded) (wired : h.Wired) (scalar : v.isList = false) :
    h.Builds h v (leafSnapshot v) where
  grows := .refl h
  grounded := grounded
  wired := wired
  within := by
    rintro l rfl
    cases scalar
  tree := .scalar scalar

theorem BuildsAll.cons {h₁ h₂ : Heap} (first : h.Builds h₁ v t)
    (others : h₁.BuildsAll h₂ values ts) : h.BuildsAll h₂ (v :: values) (t :: ts) where
  grows := first.grows.trans others.grows
  grounded := others.grounded
  wired := others.wired
  within := List.forall_mem_cons.mpr
    ⟨first.within.mono fun _ old => Nat.lt_of_lt_of_le old others.grows.count, others.within⟩
  trees :=
    .cons (first.tree.grows others.grows first.grounded first.wired first.within) others.trees

theorem BuildsAll.newList (builds : h.BuildsAll h' values ts) :
    h.Builds (h'.newList values).2 (h'.newList values).1 (.list ts) := by
  have grows := grows_newList h' values
  obtain ⟨keeps, within⟩ := groundedness_lawful.newList builds.grounded builds.within
  obtain ⟨l, isList, elements⟩ := values_newList h' values
  refine ⟨builds.grows.trans grows, keeps.inv, wired_newList builds.wired values, within, ?_⟩
  rw [isList]
  refine .items ?_
  rw [elements]
  exact builds.trees.grows grows builds.grounded builds.wired builds.within

end Heap

/-! ## Evaluation -/

namespace Expr

/-- The value of an expression that is written as it is. -/
def constant? : Expr → Option Value
  | .int _ n => some (.int n)
  | .float _ x => some (.float x)
  | .bool _ b => some (.bool b)
  | .str _ s => some (.str s)
  | .none _ => some .none
  | _ => Option.none

theorem constant?_bare (e : Expr) : e.bare.constant? = e.constant? := by
  cases e <;> simp [bare, constant?]

theorem eq_unary_of_bare {e operand : Expr} {op : UnOp} (same : e.bare = .unary {} op operand) :
    ∃ place operand', e = .unary place op operand' ∧ operand'.bare = operand := by
  cases e with
  | unary place op' operand' =>
    obtain ⟨rfl, rfl⟩ : op' = op ∧ operand'.bare = operand := by simpa [bare] using same
    exact ⟨place, operand', rfl, rfl⟩
  | _ => simp [bare] at same

theorem eq_list_of_bare {e : Expr} {items : List Expr} (same : e.bare = .list {} items) :
    ∃ place items', e = .list place items' ∧ bareAll items' = items := by
  cases e with
  | list place items' =>
    obtain rfl : bareAll items' = items := by simpa [bare] using same
    exact ⟨place, items', rfl, rfl⟩
  | _ => simp [bare] at same

end Expr

namespace Machine

open TraceLang.Action Heap

variable {g : Engine} {m : Machine} {e : Expr} {v : Value}

theorem eval_of_constant (is : e.constant? = some v) : eval g e m = .ok (.fresh v) m := by
  cases e with
  | int | float | bool | str | none =>
    cases is
    rw [eval]
    rfl
  | _ => cases is

/-- The negated literal of a negative number gives the number. -/
theorem eval_negated {n : Int64} {operand : Expr} {place : Span} (other : n ≠ Int64.minValue)
    (is : operand.constant? = some (.int (Int64.ofInt (-n.toInt)))) :
    eval g (.unary place .neg operand) m = .ok (.fresh (.int n)) m := by
  have yields : Yields g m operand (Int64.ofInt (-n.toInt)) := ⟨_, eval_of_constant is, rfl, rfl⟩
  have back : -(Int64.ofInt (-n.toInt)).toInt = n.toInt := by
    rw [toInt_ofInt_of_fits (fits_neg other), Int.neg_neg]
  rw [eval_unary_of_yields yields, Operators.unary, back,
    Operators.inRange_of_fits (fits_toInt n), Int64.ofInt_toInt]
  rfl

theorem eval_literal_of_constant (is : e.constant? = some v) (scalar : v.isList = false)
    (grounded : m.heap.Grounded) (wired : m.heap.Wired) :
    ∃ r heap, eval g e m = .ok r { m with heap } ∧ r.assigned ∧
      m.heap.Builds heap r.value (leafSnapshot v) :=
  ⟨.fresh v, m.heap, eval_of_constant is, rfl, builds_scalar grounded wired scalar⟩

mutual

/-- An expression that is the literal of a tree, apart from places, gives a value with this
tree, whatever the machine. Nothing but new lists is added to the heap. -/
theorem eval_literal (g : Engine) : (t : Snapshot) → t.isWritable → ∀ (e : Expr) (m : Machine),
    e.bare = t.literal.bare → m.heap.Grounded → m.heap.Wired →
      ∃ r heap, eval g e m = .ok r { m with heap } ∧ r.assigned ∧ m.heap.Builds heap r.value t
  | .int n, writable, e, m, same, grounded, wired => by
    have other : n ≠ Int64.minValue := of_decide_eq_true writable
    rw [Snapshot.literal] at same
    split at same
    · rw [Expr.bare, Expr.bare] at same
      obtain ⟨place, operand, rfl, ofOperand⟩ := Expr.eq_unary_of_bare same
      have is : operand.constant? = some (.int (Int64.ofInt (-n.toInt))) := by
        rw [← operand.constant?_bare, ofOperand]
        rfl
      exact ⟨.fresh (.int n), m.heap, eval_negated other is, rfl, builds_scalar grounded wired rfl⟩
    · have is : e.constant? = some (.int n) := by
        rw [← e.constant?_bare, same, Expr.bare]
        rfl
      exact eval_literal_of_constant is rfl grounded wired
  | .none, _, e, m, same, grounded, wired => by
    have is : e.constant? = some .none := by
      rw [← e.constant?_bare, same, Snapshot.literal, Expr.bare]
      rfl
    exact eval_literal_of_constant is rfl grounded wired
  | .bool b, _, e, m, same, grounded, wired => by
    have is : e.constant? = some (.bool b) := by
      rw [← e.constant?_bare, same, Snapshot.literal, Expr.bare]
      rfl
    exact eval_literal_of_constant is rfl grounded wired
  | .str s, _, e, m, same, grounded, wired => by
    have is : e.constant? = some (.str s) := by
      rw [← e.constant?_bare, same, Snapshot.literal, Expr.bare]
      rfl
    exact eval_literal_of_constant is rfl grounded wired
  | .list items, writable, e, m, same, grounded, wired => by
    rw [Snapshot.literal, Expr.bare] at same
    obtain ⟨place, es, rfl, sameItems⟩ := Expr.eq_list_of_bare same
    obtain ⟨rs, heap, ran, builds⟩ :=
      evalArgs_literal g items writable es m sameItems grounded wired
    refine ⟨.fresh (heap.newList (rs.map (·.value))).1, _, ?_, rfl, builds.newList⟩
    rw [eval]
    exact located_of_ok (bind_of_ok ran)

theorem evalArgs_literal (g : Engine) : (ts : List Snapshot) → Snapshot.allWritable ts →
    ∀ (es : List Expr) (m : Machine), Expr.bareAll es = Expr.bareAll (Snapshot.literalAll ts) →
      m.heap.Grounded → m.heap.Wired →
      ∃ rs heap, evalArgs g es m = .ok rs { m with heap } ∧
        m.heap.BuildsAll heap (rs.map (·.value)) ts
  | [], _, es, m, same, grounded, wired => by
    cases es with
    | nil =>
      refine ⟨[], m.heap, ?_, .refl _, grounded, wired, by simp, .nil⟩
      rw [evalArgs]
      rfl
    | cons => simp [Expr.bareAll, Snapshot.literalAll] at same
  | t :: ts, writable, es, m, same, grounded, wired => by
    cases es with
    | nil => simp [Expr.bareAll, Snapshot.literalAll] at same
    | cons e es =>
      simp only [Snapshot.allWritable, Bool.and_eq_true] at writable
      simp only [Snapshot.literalAll, Expr.bareAll, List.cons.injEq] at same
      obtain ⟨r, heap, ran, assigned, builds⟩ :=
        eval_literal g t writable.1 e m same.1 grounded wired
      obtain ⟨rs, heap', ran', buildsAll⟩ := evalArgs_literal g ts writable.2 es { m with heap }
        same.2 builds.grounded builds.wired
      refine ⟨r :: rs, heap', ?_, .cons builds buildsAll⟩
      rw [evalArgs, bind_of_ok ran, bind_of_ok (used_of_assigned assigned), bind_of_ok ran']
      rfl

end

end Machine

namespace Heap

/-- The text of a list without cycles, without floating-point numbers, without the least
integer and with plain characters only, not nested too deep, is read as an expression. This
expression can be evaluated in every machine, and gives a value that looks like the list. Where
the list itself is still in the heap, the two are equal. -/
theorem text_readsBack_equal {h : Heap} {l : ListId} (grounded : h.Grounded) (wired : h.Wired)
    (within : (Value.list l).Within h.lists.size) (acyclic : h.Acyclic (.list l))
    (writable : (h.snapshot (.list l)).isWritable) (shallow : (h.snapshot (.list l)).depth ≤ 900) :
    ∃ place named e, Program.read ("x = " ++ h.text (.list l) ++ ";") =
        .ok { body := [.assign place (.var named "x") e] } ∧
      ∀ (g : Engine) (m : Machine), m.heap.Grounded → m.heap.Wired →
        ∃ v heap, Machine.eval g e m = .ok v { m with heap } ∧ v.assigned ∧
          heap.snapshot v.value = h.snapshot (.list l) ∧
          (h.Grows m.heap → heap.equal (.list l) v.value) := by
  have levels : (h.snapshot (.list l)).depth + 3 ≤ maxNesting := Nat.le_trans
    (Nat.add_le_add_right shallow 3) (by decide)
  obtain ⟨place, named, e, read, same⟩ := Snapshot.readsBack_literal writable levels
  rw [← acyclic.text_eq writable] at read
  refine ⟨place, named, e, read, fun g m grounded' wired' => ?_⟩
  obtain ⟨v, heap, ran, assigned, builds⟩ :=
    Machine.eval_literal g _ writable e m same grounded' wired'
  refine ⟨v, heap, ran, assigned, builds.tree.snapshot_eq, ?_⟩
  intro grown
  have kept := acyclic.hasTree.grows (grown.trans builds.grows) grounded wired within
  exact equal_of_hasTree kept builds.tree (kept.floatFree writable)

/-- A list with a negative number, a string with a quote and a line break, and another list
in two places. -/
theorem text_readsBack_equal_nested :
    let h : Heap :=
      { cells := #[.fresh (.int (-5)), .fresh (.str "a\"\n"), .fresh (.list ⟨0⟩),
          .fresh (.bool true), .fresh .none, .fresh (.list ⟨0⟩)]
        lists := #[#[⟨3⟩, ⟨4⟩], #[⟨0⟩, ⟨1⟩, ⟨2⟩, ⟨5⟩]] }
    let m : Machine := { heap := h }
    h.text (.list ⟨1⟩) = "[-5, \"a\\\"\\n\", [true, none], [true, none]]" ∧
      ∃ place named e v heap, Program.read ("x = " ++ h.text (.list ⟨1⟩) ++ ";") =
          .ok { body := [.assign place (.var named "x") e] } ∧
        Machine.eval ((Env.standard {}).engine 0) e m = .ok v { m with heap } ∧
        heap.equal (.list ⟨1⟩) v.value := by
  intro h m
  have grounded : h.Grounded := by
    rintro ⟨_ | _ | _ | _ | _ | _ | i⟩ l isList
    all_goals cases isList
    all_goals decide
  have wired : h.Wired := by
    rintro ⟨_ | _ | l⟩ c member
    · exact (by decide : ∀ c ∈ h.elements ⟨0⟩, c.index < h.cells.size) c member
    · exact (by decide : ∀ c ∈ h.elements ⟨1⟩, c.index < h.cells.size) c member
    · simp [h, elements] at member
  have descends : h.Descends [⟨0⟩, ⟨1⟩] := by decide +kernel
  obtain ⟨place, named, e, read, evaluated⟩ := text_readsBack_equal (l := ⟨1⟩) grounded wired
    (Value.fits_list (by decide)) (descends.acyclic (by simp)) (by decide +kernel)
    (by decide +kernel)
  obtain ⟨v, heap, ran, -, -, equal⟩ := evaluated ((Env.standard {}).engine 0) m grounded wired
  exact ⟨by decide +kernel, place, named, e, v, heap, read, ran, equal (.refl h)⟩

end Heap

end TraceLang
