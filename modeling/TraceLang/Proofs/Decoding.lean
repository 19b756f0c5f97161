/-
# TraceLang.Proofs.Decoding — programs out of their trees

A tree holds all of a program whose float literals are finite and whose offsets have
64 bits: reading the tree gives the program back, and the tree of any other program
cannot be read at all. So reading followed by writing gives back every tree that was
written.

Which loops are in progress and how often a call statement has completed is no part of
a tree. The machine keeps it by the number of the program, and a number that no run has
had stands for a program that has not run.
-/
import TraceLang.Proofs.Kinship.Programs
import TraceLang.Proofs.Syntax.Parts
import TraceLang.Proofs.Syntax.Program
import TraceLang.Syntax.Tree

namespace TraceLang

set_option autoImplicit false

/-! ## Readers -/

/-- The reader answers with `a` if the condition holds, and not at all otherwise. -/
def Reads {α : Type} (answer : Option α) (condition : Prop) (a : α) : Prop :=
  ∀ b, answer = some b ↔ condition ∧ b = a

section

variable {α β : Type} {p q : Prop} {a : α} {b : β}

theorem reads_some (a : α) : Reads (some a) True a :=
  fun b => by simp [eq_comm]

theorem reads_ite [Decidable p] (a : α) : Reads (if p then some a else none) p a := by
  intro b
  split <;> simp_all [eq_comm]

theorem Reads.of_iff {answer : Option α} (reads : Reads answer p a) (same : p ↔ q) :
    Reads answer q a :=
  fun b => by rw [reads b, same]

theorem Reads.bind {answer : Option α} {f : α → Option β} (first : Reads answer p a)
    (second : Reads (f a) q b) : Reads (answer >>= f) (p ∧ q) b := by
  intro c
  simp only [Option.bind_eq_bind, Option.bind_eq_some_iff, first _]
  constructor
  · rintro ⟨_, ⟨holds, rfl⟩, answered⟩
    obtain ⟨holds', rfl⟩ := (second c).mp answered
    exact ⟨⟨holds, holds'⟩, rfl⟩
  · rintro ⟨⟨holds, holds'⟩, rfl⟩
    exact ⟨a, ⟨holds, rfl⟩, (second c).mpr ⟨holds', rfl⟩⟩

theorem Reads.map {answer : Option α} {f : α → β} (reads : Reads answer p a) :
    Reads (answer >>= fun a => pure (f a)) p (f a) :=
  (reads.bind (reads_some (f a))).of_iff (Iff.of_eq (and_true p))

/-- Reading each of the trees of a list gives the list. -/
theorem reads_mapM {write : α → Json} {read : Json → Option α} {condition : α → Prop} :
    ∀ {as : List α}, (∀ a ∈ as, Reads (read (write a)) (condition a) a) →
      Reads ((as.map write).mapM read) (∀ a ∈ as, condition a) as
  | [], _ => by simpa using reads_some ([] : List α)
  | a :: rest, each => by
    obtain ⟨ofFirst, ofRest⟩ := List.forall_mem_cons.mp each
    rw [List.map_cons, List.mapM_cons]
    refine Reads.of_iff (.bind ofFirst (.map (reads_mapM ofRest))) ?_
    simp

end

namespace Json

/-- A label of a set whose labels differ is read back. -/
theorem reads_label {α : Type} {all : List α} {name : α → String} {a : α}
    (found : all.find? (name · = name a) = some a) :
    Reads ((label (name a)).label? all name) True a := by
  have read : (label (name a)).label? all name = some a := found
  rw [read]
  exact reads_some a

theorem reads_int64 (n : Int64) : Reads (Json.int n.toInt).int64? True n := by
  have low := n.minValue_le_toInt
  have high := n.toInt_le
  simp only [int64?, low, high, and_self, if_true, Int64.ofInt_toInt]
  exact reads_some n

/-- A number that is not finite is written as null, which is no number. -/
theorem reads_binary64 (x : Binary64) :
    Reads (if x.isFinite then Json.float x else .null).binary64? x.isFinite x := by
  have read : (if x.isFinite then Json.float x else .null).binary64? =
      if x.isFinite then some x else none := by
    split <;> rfl
  rw [read]
  exact reads_ite x

end Json

/-- The offsets of the span have 64 bits. -/
def Span.Fits (s : Span) : Prop :=
  s.start < UInt64.size ∧ s.stop < UInt64.size

instance (s : Span) : Decidable s.Fits :=
  inferInstanceAs (Decidable (_ ∧ _))

theorem reads_offset (n : Nat) : Reads (Json.int n).offset? (n < UInt64.size) n := by
  have read : (Json.int n).offset? = if n < UInt64.size then some n else none := by
    simp [Json.offset?]
  rw [read]
  exact reads_ite n

theorem Span.reads (s : Span) : Reads s.toJson.span? s.Fits s := by
  have read : s.toJson.span? = (do
      let start ← (Json.int s.start).offset?
      let stop ← (Json.int s.stop).offset?
      some { start, stop }) := rfl
  rw [read]
  refine Reads.of_iff (.bind (reads_offset s.start) (.map (reads_offset s.stop))) ?_
  simp [Fits]

theorem Ty.reads (ty : Ty) : Reads ((Json.label ty.keyword).label? Ty.all Ty.keyword) True ty :=
  Json.reads_label (by cases ty <;> rfl)

/-! ## Depths -/

namespace Json

theorem depth_le_depthItems {j : Json} {items : List Json} (mem : j ∈ items) :
    j.depth ≤ depthItems items := by
  induction items with
  | nil => cases mem
  | cons first rest ih =>
    rw [depthItems]
    rcases List.mem_cons.mp mem with rfl | mem
    · omega
    · have := ih mem
      omega

end Json

/-! ## Expressions -/

namespace Expr

mutual

/-- An expression and all expressions inside it. -/
def parts : Expr → List Expr
  | .list span items => .list span items :: partsOf items
  | .index span base position => .index span base position :: (base.parts ++ position.parts)
  | .binary span op left right => .binary span op left right :: (left.parts ++ right.parts)
  | .unary span op operand => .unary span op operand :: operand.parts
  | .call span name args => .call span name args :: partsOf args
  | e => [e]

/-- Expressions and all expressions inside them. -/
def partsOf : List Expr → List Expr
  | [] => []
  | e :: rest => e.parts ++ partsOf rest

end

theorem forall_mem_partsOf {p : Expr → Prop} {es : List Expr} :
    (∀ x ∈ partsOf es, p x) ↔ ∀ e ∈ es, ∀ x ∈ e.parts, p x := by
  induction es with
  | nil => simp [partsOf]
  | cons e rest ih => simp only [partsOf, List.forall_mem_append, List.forall_mem_cons, ih]

theorem forall_mem_parts {p : Expr → Prop} (e : Expr) :
    (∀ x ∈ e.parts, p x) ↔ p e ∧ ∀ c ∈ e.children, ∀ x ∈ c.parts, p x := by
  cases e <;>
    simp only [parts, children, List.forall_mem_cons, List.forall_mem_append, forall_mem_partsOf,
      List.not_mem_nil, false_imp_iff, implies_true, and_true]

/-- The number of a float literal is finite. -/
def isFiniteLiteral : Expr → Bool
  | .float _ x => x.isFinite
  | _ => true

/-- A tree can hold the expression itself. -/
def Storable (e : Expr) : Prop :=
  e.span.Fits ∧ e.isFiniteLiteral

theorem nodes_eq_map (es : List Expr) : nodes es = es.map toJson := by
  induction es with
  | nil => rfl
  | cons e rest ih => rw [nodes, ih]; rfl

theorem depth_lt_of_child {e c : Expr} (mem : c ∈ e.children) :
    c.toJson.depth < e.toJson.depth := by
  have listed : ∀ es : List Expr, c ∈ es → c.toJson.depth ≤ Json.depthItems (nodes es) := by
    intro es mem
    rw [nodes_eq_map]
    exact Json.depth_le_depthItems (List.mem_map_of_mem mem)
  have inNode : e.node.depth < e.toJson.depth := by
    simp only [toJson, Json.located, Json.depth, Json.depthFields]
    omega
  refine Nat.lt_of_le_of_lt ?_ inNode
  cases e with
  | list _ es | call _ _ es =>
    have := listed es mem
    simp only [node, Json.form, Json.depth, Json.depthFields]
    omega
  | index | binary | unary =>
    simp only [children, List.mem_cons, List.not_mem_nil, or_false] at mem
    simp only [node, Json.form, Json.depth, Json.depthFields]
    rcases mem with rfl | rfl <;> simp only [toJson] <;> omega
  | _ => cases mem

/-- The tree of an expression is read back if it holds the expression and all inside it. -/
theorem reads_within : ∀ (n : Nat) (e : Expr), e.toJson.depth ≤ n →
    Reads (ofJsonWithin n e.toJson) (∀ x ∈ e.parts, x.Storable) e := by
  intro n
  induction n with
  | zero =>
    intro e deep
    simp [toJson, Json.located, Json.depth] at deep
  | succ n ih =>
    intro e deep
    have inner : ∀ c ∈ e.children,
        Reads (ofJsonWithin n c.toJson) (∀ x ∈ c.parts, x.Storable) c := fun c mem =>
      ih c (by have := depth_lt_of_child mem; omega)
    have items : Reads ((nodes e.children).mapM (ofJsonWithin n))
        (∀ c ∈ e.children, ∀ x ∈ c.parts, x.Storable) e.children := by
      rw [nodes_eq_map]
      exact reads_mapM inner
    refine Reads.of_iff ?_ (forall_mem_parts e).symm
    -- Each case says what the reader does once it has recognized the form.
    cases e with
    | int span k =>
      change Reads (do return Expr.int (← span.toJson.span?) (← (Json.int k.toInt).int64?)) _ _
      refine Reads.of_iff (.bind span.reads (.map (Json.reads_int64 k))) ?_
      simp [Storable, Expr.span, isFiniteLiteral, children]
    | float span x =>
      change Reads (do
        return Expr.float (← span.toJson.span?)
          (← (if x.isFinite then Json.float x else .null).binary64?)) _ _
      refine Reads.of_iff (.bind span.reads (.map (Json.reads_binary64 x))) ?_
      simp [Storable, Expr.span, isFiniteLiteral, children]
    | bool span b =>
      change Reads (do return Expr.bool (← span.toJson.span?) b) _ _
      refine Reads.of_iff (.map span.reads) ?_
      simp [Storable, Expr.span, isFiniteLiteral, children]
    | str span s =>
      change Reads (do return Expr.str (← span.toJson.span?) s) _ _
      refine Reads.of_iff (.map span.reads) ?_
      simp [Storable, Expr.span, isFiniteLiteral, children]
    | none span =>
      change Reads (do return Expr.none (← span.toJson.span?)) _ _
      refine Reads.of_iff (.map span.reads) ?_
      simp [Storable, Expr.span, isFiniteLiteral, children]
    | list span es =>
      change Reads (do
        return Expr.list (← span.toJson.span?) (← (nodes es).mapM (ofJsonWithin n))) _ _
      refine Reads.of_iff (.bind span.reads (.map items)) ?_
      simp [Storable, Expr.span, isFiniteLiteral, children]
    | var span name =>
      change Reads (do return Expr.var (← span.toJson.span?) name) _ _
      refine Reads.of_iff (.map span.reads) ?_
      simp [Storable, Expr.span, isFiniteLiteral, children]
    | index span base position =>
      have ofBase := inner base (by simp [children])
      have ofPosition := inner position (by simp [children])
      change Reads (do
        return Expr.index (← span.toJson.span?) (← ofJsonWithin n base.toJson)
          (← ofJsonWithin n position.toJson)) _ _
      refine Reads.of_iff (.bind span.reads (.bind ofBase (.map ofPosition))) ?_
      simp [Storable, Expr.span, isFiniteLiteral, children]
    | binary span op left right =>
      have ofLeft := inner left (by simp [children])
      have ofRight := inner right (by simp [children])
      have ofOp : Reads ((Json.label op.label).label? BinOp.all BinOp.label) True op :=
        Json.reads_label (by cases op <;> rfl)
      change Reads (do
        return Expr.binary (← span.toJson.span?)
          (← (Json.label op.label).label? BinOp.all BinOp.label)
          (← ofJsonWithin n left.toJson) (← ofJsonWithin n right.toJson)) _ _
      refine Reads.of_iff (.bind span.reads (.bind ofOp (.bind ofLeft (.map ofRight)))) ?_
      simp [Storable, Expr.span, isFiniteLiteral, children]
    | unary span op operand =>
      have ofOperand := inner operand (by simp [children])
      have ofOp : Reads ((Json.label op.label).label? UnOp.all UnOp.label) True op :=
        Json.reads_label (by cases op <;> rfl)
      change Reads (do
        return Expr.unary (← span.toJson.span?) (← (Json.label op.label).label? UnOp.all UnOp.label)
          (← ofJsonWithin n operand.toJson)) _ _
      refine Reads.of_iff (.bind span.reads (.bind ofOp (.map ofOperand))) ?_
      simp [Storable, Expr.span, isFiniteLiteral, children]
    | call span name args =>
      change Reads (do
        return Expr.call (← span.toJson.span?) name (← (nodes args).mapM (ofJsonWithin n))) _ _
      refine Reads.of_iff (.bind span.reads (.map items)) ?_
      simp [Storable, Expr.span, isFiniteLiteral, children]
    | default span ty =>
      change Reads (do
        return Expr.default (← span.toJson.span?)
          (← (Json.label ty.keyword).label? Ty.all Ty.keyword)) _ _
      refine Reads.of_iff (.bind span.reads (.map ty.reads)) ?_
      simp [Storable, Expr.span, isFiniteLiteral, children]

/-- The tree of an expression is read back if it holds the expression and all inside it. -/
theorem reads (e : Expr) : Reads (ofJson? e.toJson) (∀ x ∈ e.parts, x.Storable) e :=
  reads_within _ e (Nat.le_refl _)

theorem reads_list (es : List Expr) :
    Reads (listOfJson? (.arr (nodes es))) (∀ e ∈ es, ∀ x ∈ e.parts, x.Storable) es := by
  have read : listOfJson? (.arr (nodes es)) = (es.map toJson).mapM ofJson? := by
    rw [← nodes_eq_map]
    rfl
  rw [read]
  exact reads_mapM fun e _ => e.reads

end Expr

/-! ## Instructions -/

theorem Declaration.reads (d : Declaration) :
    Reads (Declaration.ofJson? d.toJson) (∀ x ∈ d.init.parts, x.Storable) d := by
  have ofMode : Reads ((Json.label d.mode.label).label? OverwriteMode.all OverwriteMode.label) True
      d.mode := Json.reads_label (by cases d.mode <;> rfl)
  change Reads (do
    let ty ← (Json.label d.ty.keyword).label? Ty.all Ty.keyword
    let init ← Expr.ofJson? d.init.toJson
    let mode ← (Json.label d.mode.label).label? OverwriteMode.all OverwriteMode.label
    return { d with ty, init, mode }) _ _
  refine Reads.of_iff (.bind d.ty.reads (.bind d.init.reads (.map ofMode))) ?_
  simp

theorem Param.reads (p : Param) : Reads (Param.ofJson? p.toJson) True p := by
  change Reads (do return { p with ty := ← (Json.label p.ty.keyword).label? Ty.all Ty.keyword }) _ _
  exact .map p.ty.reads

namespace Instr

/-- The places of an instruction itself: its own, and that of the function it defines. -/
def spans : Instr → List Span
  | .define span _ _ _ funcSpan => [span, funcSpan]
  | i => [i.span]

/-- A tree can hold the instruction, apart from the instructions inside it. -/
def Storable (i : Instr) : Prop :=
  (∀ s ∈ i.spans, s.Fits) ∧ ∀ e ∈ i.exprs, ∀ x ∈ e.parts, x.Storable

/-- The instructions right inside an instruction. -/
def inner (i : Instr) : List Instr :=
  i.headers ++ i.blocks.flatten

theorem every_iff {p : Instr → Prop} (i : Instr) : i.Every p ↔ p i ∧ ∀ j ∈ i.inner, j.Every p := by
  cases i <;> simp [Every, everyOf_iff, inner, headers, blocks, or_imp, forall_and]

theorem kinds_eq_map (block : List Instr) : kinds block = block.map toJson := by
  induction block with
  | nil => rfl
  | cons i rest ih => rw [kinds, ih]; rfl

theorem depth_lt_of_inner {i j : Instr} (mem : j ∈ i.inner) : j.toJson.depth < i.toJson.depth := by
  have listed : ∀ block : List Instr, j ∈ block →
      j.toJson.depth ≤ Json.depthItems (kinds block) := by
    intro block mem
    rw [kinds_eq_map]
    exact Json.depth_le_depthItems (List.mem_map_of_mem mem)
  have inKind : i.kind.depth < i.toJson.depth := by
    simp only [toJson, placed, Json.depth, Json.depthFields]
    omega
  refine Nat.lt_of_le_of_lt ?_ inKind
  cases i with
  | whileLoop _ _ body | define _ _ _ body _ =>
    have := listed body (by simpa [inner, headers, blocks] using mem)
    simp only [kind, Json.form, looped, Json.depth, Json.depthFields]
    omega
  | forLoop _ init step _ body =>
    have mem : j = init ∨ j = step ∨ j ∈ body := by simpa [inner, headers, blocks] using mem
    simp only [kind, Json.form, looped, Json.depth, Json.depthFields]
    rcases mem with rfl | rfl | mem
    · simp only [toJson]; omega
    · simp only [toJson]; omega
    · have := listed body mem; omega
  | conditional _ _ onTrue onFalse =>
    have mem : j ∈ onTrue ∨ j ∈ onFalse := by simpa [inner, headers, blocks] using mem
    simp only [kind, Json.form, Json.depth, Json.depthFields]
    rcases mem with mem | mem
    · have := listed onTrue mem; omega
    · have := listed onFalse mem; omega
  | _ => simp [inner, headers, blocks] at mem

/-- The tree of an instruction is read back if it holds the instruction and all inside it. -/
theorem reads_within : ∀ (n : Nat) (i : Instr), i.toJson.depth ≤ n →
    Reads (ofJsonWithin n i.toJson) (i.Every Storable) i := by
  intro n
  induction n with
  | zero =>
    intro i deep
    simp [toJson, placed, Json.depth] at deep
  | succ n ih =>
    intro i deep
    have ofInner : ∀ j ∈ i.inner, Reads (ofJsonWithin n j.toJson) (j.Every Storable) j :=
      fun j mem => ih j (by have := depth_lt_of_inner mem; omega)
    have ofBlock : ∀ block : List Instr, (∀ j ∈ block, j ∈ i.inner) →
        Reads ((kinds block).mapM (ofJsonWithin n)) (∀ j ∈ block, j.Every Storable) block := by
      intro block held
      rw [kinds_eq_map]
      exact reads_mapM fun j mem => ofInner j (held j mem)
    refine Reads.of_iff ?_ (every_iff i).symm
    cases i with
    | whileLoop span cond body =>
      have ofBody := ofBlock body (by simp [inner, headers, blocks])
      change Reads (do
        return Instr.whileLoop (← span.toJson.span?) (← Expr.ofJson? cond.toJson)
          (← (kinds body).mapM (ofJsonWithin n))) _ _
      refine Reads.of_iff (.bind span.reads (.bind cond.reads (.map ofBody))) ?_
      simp [Storable, spans, Instr.span, exprs, inner, headers, blocks, and_assoc]
    | forLoop span init step cond body =>
      have ofInit := ofInner init (by simp [inner, headers])
      have ofStep := ofInner step (by simp [inner, headers])
      have ofBody := ofBlock body (by simp +contextual [inner, headers, blocks])
      change Reads (do
        return Instr.forLoop (← span.toJson.span?) (← ofJsonWithin n init.toJson)
          (← ofJsonWithin n step.toJson) (← Expr.ofJson? cond.toJson)
          (← (kinds body).mapM (ofJsonWithin n))) _ _
      refine Reads.of_iff
        (.bind span.reads (.bind ofInit (.bind ofStep (.bind cond.reads (.map ofBody))))) ?_
      simp only [Storable, spans, Instr.span, exprs, inner, headers, blocks, List.cons_append,
        List.nil_append, List.flatten_cons, List.flatten_nil, List.append_nil,
        List.forall_mem_singleton, List.forall_mem_cons, and_assoc]
      grind
    | conditional span cond onTrue onFalse =>
      have ofTrue := ofBlock onTrue (by simp +contextual [inner, headers, blocks])
      have ofFalse := ofBlock onFalse (by simp +contextual [inner, headers, blocks])
      change Reads (do
        return Instr.conditional (← span.toJson.span?) (← Expr.ofJson? cond.toJson)
          (← (kinds onTrue).mapM (ofJsonWithin n)) (← (kinds onFalse).mapM (ofJsonWithin n))) _ _
      refine Reads.of_iff (.bind span.reads (.bind cond.reads (.bind ofTrue (.map ofFalse)))) ?_
      simp [Storable, spans, Instr.span, exprs, inner, headers, blocks,
        and_assoc, or_imp, forall_and]
    | declare span d =>
      change Reads
        (do return Instr.declare (← span.toJson.span?) (← Declaration.ofJson? d.toJson)) _ _
      refine Reads.of_iff (.bind span.reads (.map d.reads)) ?_
      simp [Storable, spans, Instr.span, exprs, inner, headers, blocks]
    | assign span target value =>
      change Reads (do
        return Instr.assign (← span.toJson.span?) (← Expr.ofJson? target.toJson)
          (← Expr.ofJson? value.toJson)) _ _
      refine Reads.of_iff (.bind span.reads (.bind target.reads (.map value.reads))) ?_
      simp [Storable, spans, Instr.span, exprs, inner, headers, blocks]
    | call span name args =>
      change Reads (do
        return Instr.call (← span.toJson.span?) name
          (← Expr.listOfJson? (.arr (Expr.nodes args)))) _ _
      refine Reads.of_iff (.bind span.reads (.map (Expr.reads_list args))) ?_
      simp [Storable, spans, Instr.span, exprs, inner, headers, blocks]
    | define span name params body funcSpan =>
      have ofParams :
          Reads ((params.map Param.toJson).mapM Param.ofJson?) (∀ p ∈ params, True) params :=
        reads_mapM fun p _ => p.reads
      have ofBody := ofBlock body (by simp [inner, headers, blocks])
      change Reads (do
        return Instr.define (← span.toJson.span?) name
          (← (params.map Param.toJson).mapM Param.ofJson?) (← (kinds body).mapM (ofJsonWithin n))
          (← funcSpan.toJson.span?)) _ _
      refine Reads.of_iff
        (.bind span.reads (.bind ofParams (.bind ofBody (.map funcSpan.reads)))) ?_
      simp only [Storable, spans, exprs, inner, headers, blocks, List.nil_append,
        List.flatten_cons, List.flatten_nil, List.append_nil, List.forall_mem_singleton,
        List.forall_mem_cons, and_assoc]
      grind
    | trace span targets =>
      change Reads (do
        return Instr.trace (← span.toJson.span?)
          (← Expr.listOfJson? (.arr (Expr.nodes targets)))) _ _
      refine Reads.of_iff (.bind span.reads (.map (Expr.reads_list targets))) ?_
      simp [Storable, spans, Instr.span, exprs, inner, headers, blocks]
    | leave span =>
      change Reads (do return Instr.leave (← span.toJson.span?)) _ _
      refine Reads.of_iff (.map span.reads) ?_
      simp [Storable, spans, Instr.span, exprs, inner, headers, blocks]
    | again span =>
      change Reads (do return Instr.again (← span.toJson.span?)) _ _
      refine Reads.of_iff (.map span.reads) ?_
      simp [Storable, spans, Instr.span, exprs, inner, headers, blocks]
    | result span value =>
      cases value with
      | none =>
        change Reads (do return Instr.result (← span.toJson.span?) none) _ _
        refine Reads.of_iff (.map span.reads) ?_
        simp [Storable, spans, Instr.span, exprs, inner, headers, blocks]
      | some value =>
        change Reads (do
          return Instr.result (← span.toJson.span?) (some (← Expr.ofJson? value.toJson))) _ _
        refine Reads.of_iff (.bind span.reads (.map value.reads)) ?_
        simp [Storable, spans, Instr.span, exprs, inner, headers, blocks]

end Instr

/-! ## Programs -/

namespace Program

/-- All float literals of the program are finite. -/
def FloatsFinite (prog : Program) : Prop :=
  Instr.EveryOf (fun i => ∀ e ∈ i.exprs, ∀ x ∈ e.parts, x.isFiniteLiteral) prog.body

/-- All offsets of the program have 64 bits. -/
def SpansFit (prog : Program) : Prop :=
  Instr.EveryOf (fun i => (∀ s ∈ i.spans, s.Fits) ∧ ∀ e ∈ i.exprs, ∀ x ∈ e.parts, x.span.Fits)
    prog.body

instance (prog : Program) : Decidable prog.FloatsFinite :=
  inferInstanceAs (Decidable (Instr.EveryOf _ _))

instance (prog : Program) : Decidable prog.SpansFit :=
  inferInstanceAs (Decidable (Instr.EveryOf _ _))

theorem storable_iff (prog : Program) :
    Instr.EveryOf Instr.Storable prog.body ↔ prog.FloatsFinite ∧ prog.SpansFit := by
  constructor
  · intro storable
    exact ⟨Instr.EveryOf.mono (fun i held e mem x part => (held.2 e mem x part).2) _ storable,
      Instr.EveryOf.mono
        (fun i held => ⟨held.1, fun e mem x part => (held.2 e mem x part).1⟩) _ storable⟩
  · rintro ⟨finite, fit⟩
    refine Instr.EveryOf.mono (fun i held => ?_) _ (Instr.EveryOf.and _ finite fit)
    exact ⟨held.2.1, fun e mem x part => ⟨held.2.2 e mem x part, held.1 e mem x part⟩⟩

/-- The tree of a program is read back if it holds all of the program. -/
theorem reads (prog : Program) :
    Reads (ofJson? prog.toJson) (prog.FloatsFinite ∧ prog.SpansFit) prog := by
  have ofBody : Reads ((Instr.kinds prog.body).mapM Instr.ofJson?)
      (∀ i ∈ prog.body, i.Every Instr.Storable) prog.body := by
    rw [Instr.kinds_eq_map]
    exact reads_mapM fun i _ => Instr.reads_within _ i (Nat.le_refl _)
  change Reads (do return Program.mk (← (Instr.kinds prog.body).mapM Instr.ofJson?)) _ _
  refine Reads.of_iff (.map ofBody) ?_
  rw [← Instr.everyOf_iff, storable_iff]

end Program

/-! ## Numbers of programs -/

/-- The machine that a computation leaves behind. -/
def Outcome.machine? {α : Type} : Outcome α → Option Machine
  | .ok _ m | .fault _ m => some m
  | .outOfFuel => none

/-- Runs that have nothing to hide, of programs with these numbers. -/
abbrev Kinship.numbered (units : Nat → Prop) : Kinship :=
  .strict (fun _ => False) units

namespace Machine

open TraceLang.Action Kinship

variable {m m' : Machine}

theorem Within.mono {units units' : Nat → Prop} (within : m.Within units)
    (more : ∀ unit, units unit → units' unit) : m.Within units' where
  loops s iterating := more _ (within.loops s iterating)
  calls s called := more _ (within.calls s called)
  functions name f found := more _ (within.functions name f found)

/-- An action that keeps in step with itself learns of no other numbers. -/
theorem within_of_akin {α : Type} {units : Nat → Prop} {act : Action α}
    (akin : (Kinship.numbered units).Akin Eq act act) (within : m.Within units)
    (left : (act m).machine? = some m') : m'.Within units := by
  have alike := akin m m (.refl within)
  generalize act m = r, act m = r' at alike left
  cases alike with
  | ok _ kin | fault kin =>
    cases left
    exact kin.toWithin
  | excused never => exact never.elim
  | outOfFuel => cases left

theorem runEntry_akin {k : Kinship} (settings : Settings) (fuel : Nat) (name : String) :
    k.Akin Eq (runEntry ((Env.standard settings).engine fuel) name)
      (runEntry ((Env.standard settings).engine fuel) name) := by
  have call : ∀ span, k.Akin Eq _ _ := callByName_akin settings fuel name []
  refine akin_bind_eq (akin_read fun m m' kin => ?_) fun span => ?_
  · obtain ⟨heap, tracer, rfl⟩ := kin.same
    rfl
  · exact akin_lookup _ name (fun _ _ => akin_framed _ (call span))
      fun _ _ => akin_framed _ (call span)

/-- A machine on which programs have been run under these numbers and functions have
been called, each to its end or its fault. -/
inductive RanUnder : List Nat → Machine → Prop
  | new (output : Output) : RanUnder [] { output }
  | ran {units : List Nat} {m m' : Machine} (before : RanUnder units m) (settings : Settings)
    (fuel unit : Nat) (prog : Program)
    (left : (run ((Env.standard settings).engine fuel) unit prog m).machine? = some m') :
    RanUnder (unit :: units) m'
  | entered {units : List Nat} {m m' : Machine} (before : RanUnder units m) (settings : Settings)
    (fuel : Nat) (name : String)
    (left : (runEntry ((Env.standard settings).engine fuel) name m).machine? = some m') :
    RanUnder units m'

theorem RanUnder.within {units : List Nat} (ran : RanUnder units m) : m.Within (· ∈ units) := by
  induction ran with
  | new output => exact ⟨fun _ => nofun, fun s called => absurd (by simp [timesCalled]) called,
      fun _ _ => nofun⟩
  | @ran units _ _ _ settings fuel unit prog left ih =>
    have inside : (Kinship.numbered (· ∈ unit :: units)).units unit := List.mem_cons_self
    refine within_of_akin (run_akin (engine_akin settings fuel) inside prog) ?_ left
    exact ih.mono fun _ => List.mem_cons_of_mem unit
  | entered _ settings fuel name left ih =>
    exact within_of_akin (runEntry_akin settings fuel name) ih left

end Machine

/-! ## Decoded programs -/

/-- Reading the tree of a program gives the program if its float literals are finite and
its offsets have 64 bits, and nothing otherwise. A tree that was written is written
again from what is read. Under a number that no run has had, as it is given to a program
that was read, no loop of the program is in progress and none of its call statements has
completed. -/
theorem Program.decoded_anew (prog : Program) :
    (∀ read, ofJson? prog.toJson = some read ↔
      (prog.FloatsFinite ∧ prog.SpansFit) ∧ read = prog) ∧
    (∀ tree read, ofJson? tree = some read → (∃ written : Program, tree = written.toJson) →
      read.toJson = tree) ∧
    ∀ units m unit, Machine.RanUnder units m → unit ∉ units → ∀ read : Program,
      (∀ path ∈ read.loops, m.isIterating ⟨unit, path⟩ = false) ∧
        ∀ call ∈ read.calls, m.timesCalled ⟨unit, call.1⟩ = 0 := by
  refine ⟨prog.reads, ?_, ?_⟩
  · rintro _ read answered ⟨written, rfl⟩
    obtain ⟨-, rfl⟩ := (written.reads read).mp answered
    rfl
  · intro units m unit ran unused read
    have within := ran.within
    refine ⟨fun path _ => ?_, fun call _ => ?_⟩
    · simpa [Machine.isIterating] using fun mem => unused (within.loops ⟨unit, path⟩ mem)
    · exact Decidable.byContradiction fun called => unused (within.calls ⟨unit, call.1⟩ called)

/-- A program with a float literal, a loop and a call statement that has completed twice
under number 0: its tree gives it back, and under number 1 nothing has happened. -/
theorem Program.decoded_anew_called : ∃ prog m,
    Program.read "func f(float x) \x7b print(x); \x7d for (int i = 0; i < 2; i = i + 1) \x7b f(1.5); \x7d" =
        .ok prog ∧
      Machine.RanUnder [0] m ∧ m.output.text = "1.5\n1.5\n" ∧
      ofJson? prog.toJson = some prog ∧
      (∀ read, ofJson? prog.toJson = some read → read.toJson = prog.toJson) ∧
      (∀ path ∈ prog.loops, m.isIterating ⟨1, path⟩ = false) ∧
      ∀ call ∈ prog.calls, m.timesCalled ⟨1, call.1⟩ = 0 := by
  have ran : (Machine.sourceRun? ((Env.standard {}).engine 9)
      "func f(float x) \x7b print(x); \x7d for (int i = 0; i < 2; i = i + 1) \x7b f(1.5); \x7d").any
      fun r => (r.1.FloatsFinite ∧ r.1.SpansFit) ∧ r.2.output.text = "1.5\n1.5\n" := by
    decide +kernel
  obtain ⟨⟨prog, m⟩, found, held⟩ := (Option.any_eq_true _ _).mp ran
  obtain ⟨storable, printed⟩ := of_decide_eq_true held
  obtain ⟨read, ended⟩ := Machine.sourceRun?_eq_some found
  obtain ⟨readBack, rewritten, fresh⟩ := prog.decoded_anew
  have same : ofJson? prog.toJson = some prog := (readBack prog).mpr ⟨storable, rfl⟩
  have under : Machine.RanUnder [0] m := (Machine.RanUnder.new {}).ran {} 9 0 prog (by
    rw [ended]
    rfl)
  exact ⟨prog, m, read, under, printed, same, fun _ answered => rewritten _ _ answered ⟨prog, rfl⟩,
    fresh [0] m 1 under (by decide) prog⟩

end TraceLang
