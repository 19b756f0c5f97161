/-
# TraceLang.Proofs.Exactness — integer expressions are exact or fail

An expression of integer literals, integer variables and the operators of arithmetic has an
exact value over the unbounded integers (`Expr.exact`), whatever the size of the numbers on
the way. The machine has 64 bits for each of them. It gives the exact value if there is room
for it and for the values of all subexpressions; otherwise the first subexpression for which
there is none, operands before their operator and from left to right, is where it fails
(`eval_exact`). Nothing else changes.

Three operations can fail although their exact result is small: a division and a remainder
by zero, and the remainder of the least integer by minus one, whose quotient is too large.
-/
import TraceLang.Machine.Builtins
import TraceLang.Proofs.Action

namespace TraceLang

set_option autoImplicit false

/-! ## Exact values -/

/-- There is an integer of 64 bits with this value. -/
def fits (n : Int) : Bool :=
  Int64.minValue.toInt ≤ n && n ≤ Int64.maxValue.toInt

namespace BinOp

def isArithmetic : BinOp → Bool
  | .add | .sub | .mul | .div | .mod => true
  | _ => false

/-- The exact result of an arithmetic operator. A quotient is rounded toward zero, and the
remainder is what is left of the dividend. -/
def exact : BinOp → Int → Int → Int
  | .add, a, b => a + b
  | .sub, a, b => a - b
  | .mul, a, b => a * b
  | .div, a, b => a.tdiv b
  | .mod, a, b => a.tmod b
  | _, _, _ => 0

/-- The operator has a result for these operands, apart from its size. -/
def isDefined : BinOp → Int → Int → Bool
  | .div, _, b => b ≠ 0
  | .mod, a, b => decide (b ≠ 0 ∧ ¬ (a = Int64.minValue.toInt ∧ b = -1))
  | _, _, _ => true

end BinOp

namespace Expr

/-- Integer literals and variables under arithmetic operators. -/
def isArithmetic : Expr → Bool
  | .int .. | .var .. => true
  | .binary _ op left right => op.isArithmetic && left.isArithmetic && right.isArithmetic
  | .unary _ op operand => op = .neg && operand.isArithmetic
  | _ => false

/-- The value over the unbounded integers, where the variables have the values `ρ`. -/
def exact (ρ : String → Int) : Expr → Int
  | .int _ n => n.toInt
  | .var _ name => ρ name
  | .binary _ op left right => op.exact (left.exact ρ) (right.exact ρ)
  | .unary _ _ operand => -operand.exact ρ
  | _ => 0

/-- The expression and all inside it, operands before their operator and from left to right. -/
def postorder : Expr → List Expr
  | .binary span op left right => left.postorder ++ right.postorder ++ [.binary span op left right]
  | .unary span op operand => operand.postorder ++ [.unary span op operand]
  | e => [e]

/-- The outermost operator has a result, and there is room for it. -/
def isSound (ρ : String → Int) : Expr → Bool
  | .binary _ op left right =>
    op.isDefined (left.exact ρ) (right.exact ρ) && fits (op.exact (left.exact ρ) (right.exact ρ))
  | e => fits (e.exact ρ)

end Expr

/-- A fault of arithmetic: a division by zero, or a result that is too large. -/
def Cause.isArithmetic : Cause → Bool
  | .divisionByZero | .overflow _ => true
  | _ => false

/-! ## Operators -/

theorem fits_iff {n : Int} :
    fits n ↔ Int64.minValue.toInt ≤ n ∧ n ≤ Int64.maxValue.toInt := by
  simp [fits]

theorem fits_toInt (x : Int64) : fits x.toInt :=
  fits_iff.mpr ⟨x.minValue_le_toInt, x.toInt_le⟩

theorem toInt_ofInt_of_fits {n : Int} (small : fits n) : (Int64.ofInt n).toInt = n := by
  obtain ⟨low, high⟩ := fits_iff.mp small
  rw [Int64.toInt_minValue] at low
  rw [Int64.toInt_maxValue] at high
  exact Int64.toInt_ofInt_of_le low (by omega)

/-- The one quotient of integers for which there is no room. -/
theorem fits_tdiv (x y : Int64) (nonzero : y.toInt ≠ 0) :
    fits (x.toInt.tdiv y.toInt) ↔ ¬ (x.toInt = Int64.minValue.toInt ∧ y.toInt = -1) := by
  obtain ⟨low, high⟩ := fits_iff.mp (fits_toInt x)
  rw [fits_iff]
  rw [Int64.toInt_minValue] at low ⊢
  rw [Int64.toInt_maxValue] at high ⊢
  generalize x.toInt = a at low high ⊢
  generalize y.toInt = b at nonzero ⊢
  -- Only division by one or minus one leaves the size of the dividend as it is.
  by_cases unit : b = 1 ∨ b = -1
  · rcases unit with rfl | rfl
    · rw [Int.tdiv_one]
      omega
    · rw [Int.tdiv_neg, Int.tdiv_one]
      omega
  · have half : (a.tdiv b).natAbs ≤ a.natAbs / 2 := by
      rw [Int.natAbs_tdiv]
      exact Nat.div_le_div_left (by omega) (by decide)
    omega

theorem fits_tmod (x y : Int64) : fits (x.toInt.tmod y.toInt) := by
  obtain ⟨low, high⟩ := fits_iff.mp (fits_toInt x)
  rw [fits_iff]
  rw [Int64.toInt_minValue] at low ⊢
  rw [Int64.toInt_maxValue] at high ⊢
  have small : (x.toInt.tmod y.toInt).natAbs ≤ x.toInt.natAbs := by
    rw [Int.natAbs_tmod]
    exact Nat.mod_le _ _
  rcases Int.le_total 0 x.toInt with positive | negative
  · have sign := Int.tmod_nonneg y.toInt positive
    omega
  · have sign := Int.tmod_nonneg y.toInt (Int.neg_nonneg_of_nonpos negative)
    rw [Int.neg_tmod] at sign
    omega

namespace Operators

theorem inRange_of_fits {computation : Computation} {n : Int} (small : fits n) :
    inRange computation n = .ok (.int (Int64.ofInt n)) :=
  if_pos (fits_iff.mp small)

theorem inRange_of_not_fits {computation : Computation} {n : Int} (large : ¬ fits n) :
    inRange computation n = .error (.overflow computation) :=
  if_neg fun small => large (fits_iff.mpr small)

theorem onInts_of_sound {op : BinOp} (arithmetic : op.isArithmetic) {x y : Int64}
    (isDefined : op.isDefined x.toInt y.toInt) (small : fits (op.exact x.toInt y.toInt)) :
    onInts op x y = .ok (.int (Int64.ofInt (op.exact x.toInt y.toInt))) := by
  cases op with
  | add | sub | mul => exact inRange_of_fits small
  | div =>
    have nonzero : y.toInt ≠ 0 := of_decide_eq_true isDefined
    simp only [onInts, nonzero, if_false]
    exact inRange_of_fits small
  | mod =>
    obtain ⟨nonzero, other⟩ := of_decide_eq_true isDefined
    have quotient : fits (x.toInt.tdiv y.toInt) := (fits_tdiv x y nonzero).mpr other
    simp only [onInts, nonzero, if_false, inRange_of_fits quotient]
    exact inRange_of_fits small
  | eq | ne | lt | le | gt | ge | and | or => cases arithmetic

theorem onInts_of_unsound {op : BinOp} (arithmetic : op.isArithmetic) {x y : Int64}
    (unsound : ¬ (op.isDefined x.toInt y.toInt ∧ fits (op.exact x.toInt y.toInt))) :
    ∃ cause, cause.isArithmetic ∧ onInts op x y = .error cause := by
  cases op with
  | add | sub | mul =>
    exact ⟨_, rfl, inRange_of_not_fits fun small => unsound ⟨rfl, small⟩⟩
  | div =>
    by_cases zero : y.toInt = 0
    · exact ⟨.divisionByZero, rfl, if_pos zero⟩
    · have large : ¬ fits (x.toInt.tdiv y.toInt) := fun small =>
        unsound ⟨decide_eq_true zero, small⟩
      exact ⟨_, rfl, (if_neg zero).trans (inRange_of_not_fits large)⟩
  | mod =>
    by_cases zero : y.toInt = 0
    · exact ⟨.divisionByZero, rfl, if_pos zero⟩
    · have large : ¬ fits (x.toInt.tdiv y.toInt) := fun small =>
        unsound ⟨decide_eq_true ⟨zero, (fits_tdiv x y zero).mp small⟩, fits_tmod x y⟩
      refine ⟨.overflow .modulo, rfl, ?_⟩
      simp only [onInts, zero, if_false, inRange_of_not_fits large]
      rfl
  | eq | ne | lt | le | gt | ge | and | or => cases arithmetic

end Operators

/-! ## Expressions -/

namespace Machine

open TraceLang.Action

variable {g : Engine} {m : Machine} {op : BinOp} {left right operand e : Expr} {span : Span}
  {name : String} {x y : Int64} {r : Value} {cause : Cause}

/-- The name denotes an assigned variable with this integer value. -/
def HasInt (m : Machine) (name : String) (n : Int) : Prop :=
  ∃ v x, m.lookup? name = some v ∧ v.assigned ∧ v.value = .int x ∧ x.toInt = n

/-- The expression gives an integer and leaves the machine as it is. -/
def Yields (g : Engine) (m : Machine) (e : Expr) (x : Int64) : Prop :=
  ∃ v, eval g e m = .ok v m ∧ v.assigned ∧ v.value = .int x

theorem used_of_assigned {v : Variable} (assigned : v.assigned) : used e v m = .ok v m := by
  rw [used, if_pos assigned]
  rfl

theorem applyBinary_of_ok (ok : Operators.onInts op x y = .ok r) :
    applyBinary op (.int x) (.int y) m = .ok (.fresh r) m := by
  simp [applyBinary, Operators.binary, ok, Except.map]

theorem applyBinary_of_error (failed : Operators.onInts op x y = .error cause) :
    applyBinary op (.int x) (.int y) m = .fault { cause } m := by
  simp [applyBinary, Operators.binary, failed, Except.map]

/-- An operator that evaluates both of its operands. -/
theorem eval_binary (notAnd : op ≠ .and) (notOr : op ≠ .or) :
    eval g (.binary span op left right) = located span (do
      let a ← used left (← eval g left)
      let b ← used right (← eval g right)
      applyBinary op a.value b.value) := by
  rw [eval]
  · exact notAnd
  · exact notOr

theorem eval_binary_of_yields (notAnd : op ≠ .and) (notOr : op ≠ .or) (ofLeft : Yields g m left x)
    (ofRight : Yields g m right y) :
    eval g (.binary span op left right) m = located span (applyBinary op (.int x) (.int y)) m := by
  obtain ⟨v, ranLeft, assigned, isInt⟩ := ofLeft
  obtain ⟨w, ranRight, assigned', isInt'⟩ := ofRight
  rw [eval_binary notAnd notOr, ← isInt, ← isInt']
  unfold located
  rw [bind_of_ok ranLeft, bind_of_ok (used_of_assigned assigned), bind_of_ok ranRight,
    bind_of_ok (used_of_assigned assigned')]

/-- A fault of the left operand, whose place is known. -/
theorem eval_binary_of_fault_left {place : Span} (notAnd : op ≠ .and) (notOr : op ≠ .or)
    (failed : eval g left m = .fault { cause, span := some place } m) :
    eval g (.binary span op left right) m = .fault { cause, span := some place } m := by
  rw [eval_binary notAnd notOr, located_of_fault (bind_of_fault failed)]
  rfl

theorem eval_binary_of_fault_right {place : Span} (notAnd : op ≠ .and) (notOr : op ≠ .or)
    (ofLeft : Yields g m left x)
    (failed : eval g right m = .fault { cause, span := some place } m) :
    eval g (.binary span op left right) m = .fault { cause, span := some place } m := by
  obtain ⟨v, ranLeft, assigned, -⟩ := ofLeft
  rw [eval_binary notAnd notOr]
  unfold located
  rw [bind_of_ok ranLeft, bind_of_ok (used_of_assigned assigned), bind_of_fault failed]
  rfl

theorem eval_unary_of_yields {op : UnOp} (ofOperand : Yields g m operand x) :
    eval g (.unary span op operand) m =
      located span (do return .fresh (← ofExcept (Operators.unary op (.int x)))) m := by
  obtain ⟨v, ran, assigned, isInt⟩ := ofOperand
  rw [eval, ← isInt]
  unfold located
  rw [bind_of_ok ran, bind_of_ok (used_of_assigned assigned)]

theorem eval_unary_of_fault {op : UnOp} {place : Span}
    (failed : eval g operand m = .fault { cause, span := some place } m) :
    eval g (.unary span op operand) m = .fault { cause, span := some place } m := by
  rw [eval, located_of_fault (bind_of_fault failed)]
  rfl

/-- The expression gives its exact value, or fails at the first place where there is no room
for it. -/
structure Exact (g : Engine) (m : Machine) (ρ : String → Int) (e : Expr) : Prop where
  ok : (∀ s ∈ e.postorder, s.isSound ρ) → ∃ x, Yields g m e x ∧ x.toInt = e.exact ρ
  fault : ∀ bad, e.postorder.find? (!·.isSound ρ) = some bad →
    ∃ cause, cause.isArithmetic ∧ eval g e m = .fault { cause, span := some bad.span } m

variable {ρ : String → Int}

theorem sound_of_find?_none {parts : List Expr} (absent : parts.find? (!·.isSound ρ) = none) :
    ∀ s ∈ parts, s.isSound ρ := by
  simpa using absent

/-- The first of some parts is among those in front, or there is none in front. -/
theorem find?_append_cases {p : Expr → Bool} {front back : List Expr}
    (found : (front ++ back).find? p = some e) :
    front.find? p = some e ∨ front.find? p = none ∧ back.find? p = some e := by
  rw [List.find?_append] at found
  cases first : front.find? p with
  | some other => exact .inl (by simpa [first] using found)
  | none => exact .inr ⟨rfl, by simpa [first] using found⟩

theorem eq_of_find?_singleton {bad : Expr} (found : [e].find? (!·.isSound ρ) = some bad) :
    e.isSound ρ = false ∧ e = bad := by
  simpa using found

/-- What has no operands does not fail. -/
theorem exact_leaf (alone : e.postorder = [e]) (sound : e.isSound ρ) (yields : Yields g m e x)
    (value : x.toInt = e.exact ρ) : Exact g m ρ e where
  ok _ := ⟨x, yields, value⟩
  fault bad found := by simp [alone, sound] at found

theorem exact_int (n : Int64) : Exact g m ρ (.int span n) := by
  refine exact_leaf rfl (fits_toInt n) ⟨.fresh (.int n), ?_, rfl, rfl⟩ rfl
  rw [eval]
  rfl

theorem yields_var (g : Engine) (span : Span) {n : Int} (holds : m.HasInt name n) :
    ∃ x, Yields g m (.var span name) x ∧ x.toInt = n := by
  obtain ⟨v, x, found, assigned, isInt, value⟩ := holds
  obtain ⟨c, bound, rfl⟩ := Option.map_eq_some_iff.mp found
  refine ⟨x, ⟨m.heap.read c, ?_, assigned, isInt⟩, value⟩
  have located : locate name m = .ok c m := by rw [locate, bound]
  rw [eval]
  exact located_of_ok (bind_of_ok located)

theorem exact_var (holds : m.HasInt name (ρ name)) : Exact g m ρ (.var span name) := by
  obtain ⟨x, yields, value⟩ := yields_var g span holds
  refine exact_leaf rfl ?_ yields value
  show fits (ρ name)
  rw [← value]
  exact fits_toInt x

theorem exact_unary (ofOperand : Exact g m ρ operand) : Exact g m ρ (.unary span .neg operand) where
  ok sound := by
    simp only [Expr.postorder, List.forall_mem_append, List.forall_mem_singleton] at sound
    obtain ⟨x, yields, value⟩ := ofOperand.ok sound.1
    have small : fits (-x.toInt) := by
      rw [value]
      exact sound.2
    refine ⟨Int64.ofInt (-x.toInt), ⟨.fresh (.int (Int64.ofInt (-x.toInt))), ?_, rfl, rfl⟩, ?_⟩
    · rw [eval_unary_of_yields yields]
      simp only [Operators.unary, Operators.inRange_of_fits small]
      rfl
    · rw [toInt_ofInt_of_fits small, value, Expr.exact]
  fault bad found := by
    rw [Expr.postorder] at found
    rcases find?_append_cases found with inside | ⟨absent, last⟩
    · obtain ⟨cause, arithmetic, failed⟩ := ofOperand.fault bad inside
      exact ⟨cause, arithmetic, eval_unary_of_fault failed⟩
    · obtain ⟨x, yields, value⟩ := ofOperand.ok (sound_of_find?_none absent)
      obtain ⟨unsound, rfl⟩ := eq_of_find?_singleton last
      have large : ¬ fits (-x.toInt) := by
        rw [value]
        exact Bool.eq_false_iff.mp unsound
      refine ⟨.overflow .negation, rfl, ?_⟩
      rw [eval_unary_of_yields yields]
      simp only [Operators.unary, Operators.inRange_of_not_fits large]
      rfl

theorem exact_binary (arithmetic : op.isArithmetic) (ofLeft : Exact g m ρ left)
    (ofRight : Exact g m ρ right) : Exact g m ρ (.binary span op left right) := by
  have notAnd : op ≠ .and := by rintro rfl; cases arithmetic
  have notOr : op ≠ .or := by rintro rfl; cases arithmetic
  constructor
  case ok =>
    intro sound
    simp only [Expr.postorder, List.forall_mem_append, List.forall_mem_singleton, Expr.isSound,
      Bool.and_eq_true] at sound
    obtain ⟨⟨soundLeft, soundRight⟩, isDefined, small⟩ := sound
    obtain ⟨x, yieldsLeft, valueLeft⟩ := ofLeft.ok soundLeft
    obtain ⟨y, yieldsRight, valueRight⟩ := ofRight.ok soundRight
    rw [← valueLeft, ← valueRight] at isDefined small
    have ran := Operators.onInts_of_sound arithmetic isDefined small
    refine ⟨Int64.ofInt (op.exact x.toInt y.toInt), ⟨.fresh (.int _), ?_, rfl, rfl⟩, ?_⟩
    · rw [eval_binary_of_yields notAnd notOr yieldsLeft yieldsRight]
      exact located_of_ok (applyBinary_of_ok ran)
    · rw [toInt_ofInt_of_fits small, valueLeft, valueRight, Expr.exact]
  case fault =>
    intro bad found
    rw [Expr.postorder] at found
    rcases find?_append_cases found with inside | ⟨absent, last⟩
    · rcases find?_append_cases inside with inLeft | ⟨absent, inRight⟩
      · obtain ⟨cause, isCause, failed⟩ := ofLeft.fault bad inLeft
        exact ⟨cause, isCause, eval_binary_of_fault_left notAnd notOr failed⟩
      · obtain ⟨x, yieldsLeft, -⟩ := ofLeft.ok (sound_of_find?_none absent)
        obtain ⟨cause, isCause, failed⟩ := ofRight.fault bad inRight
        exact ⟨cause, isCause, eval_binary_of_fault_right notAnd notOr yieldsLeft failed⟩
    · obtain ⟨soundLeft, soundRight⟩ := List.forall_mem_append.mp (sound_of_find?_none absent)
      obtain ⟨x, yieldsLeft, valueLeft⟩ := ofLeft.ok soundLeft
      obtain ⟨y, yieldsRight, valueRight⟩ := ofRight.ok soundRight
      obtain ⟨unsound, rfl⟩ := eq_of_find?_singleton last
      rw [Expr.isSound, ← valueLeft, ← valueRight] at unsound
      obtain ⟨cause, isCause, failed⟩ :=
        Operators.onInts_of_unsound (x := x) (y := y) arithmetic (by simpa using unsound)
      refine ⟨cause, isCause, ?_⟩
      rw [eval_binary_of_yields notAnd notOr yieldsLeft yieldsRight]
      exact located_of_fault (applyBinary_of_error failed)

/-- One case for each shape of an arithmetic expression. -/
theorem exact_of_arithmetic : (e : Expr) → e.isArithmetic →
    (∀ span name, .var span name ∈ e.postorder → m.HasInt name (ρ name)) → Exact g m ρ e
  | .int _ n, _, _ => exact_int n
  | .var span name, _, bound => exact_var (bound span name (List.mem_singleton_self _))
  | .binary span op left right, arithmetic, bound => by
    simp only [Expr.isArithmetic, Bool.and_eq_true] at arithmetic
    refine exact_binary arithmetic.1.1
      (exact_of_arithmetic left arithmetic.1.2 fun s x inside => ?_)
      (exact_of_arithmetic right arithmetic.2 fun s x inside => ?_)
    · exact bound s x (by simp [Expr.postorder, inside])
    · exact bound s x (by simp [Expr.postorder, inside])
  | .unary span op operand, arithmetic, bound => by
    simp only [Expr.isArithmetic, Bool.and_eq_true, decide_eq_true_eq] at arithmetic
    obtain ⟨rfl, arithmetic⟩ := arithmetic
    refine exact_unary (exact_of_arithmetic operand arithmetic fun s x inside => ?_)
    exact bound s x (by simp [Expr.postorder, inside])

/-- Quotient and remainder make up the dividend, and the remainder is smaller than the divisor
and has the sign of the dividend. So the quotient is rounded toward zero. -/
theorem quotient_remainder (a b : Int) :
    a = a.tdiv b * b + a.tmod b ∧ (0 ≤ a → 0 ≤ a.tmod b) ∧ (a ≤ 0 → a.tmod b ≤ 0) ∧
      (b ≠ 0 → (a.tmod b).natAbs < b.natAbs) := by
  refine ⟨(Int.tdiv_mul_add_tmod a b).symm, Int.tmod_nonneg b, fun negative => ?_,
    fun nonzero => ?_⟩
  · have sign := Int.tmod_nonneg b (Int.neg_nonneg_of_nonpos negative)
    rw [Int.neg_tmod] at sign
    omega
  · rw [Int.natAbs_tmod]
    exact Nat.mod_lt _ (Int.natAbs_pos.mpr nonzero)

/-- An expression of integer literals, variables with integer values and arithmetic operators
gives an integer exactly if every subexpression has its exact value within 64 bits, and then it
gives its own. Otherwise it fails in arithmetic, at the first subexpression that has not. In
neither case does the machine change. Quotients and remainders are those of truncation. -/
theorem eval_exact (g : Engine) (m : Machine) {ρ : String → Int} {e : Expr}
    (arithmetic : e.isArithmetic)
    (bound : ∀ span name, .var span name ∈ e.postorder → m.HasInt name (ρ name)) :
    (∀ x : Int64, (∃ v, eval g e m = .ok v m ∧ v.value = .int x) ↔
      (∀ s ∈ e.postorder, s.isSound ρ) ∧ x.toInt = e.exact ρ) ∧
    ((∃ s ∈ e.postorder, ¬ s.isSound ρ) → ∃ bad cause,
      e.postorder.find? (!·.isSound ρ) = some bad ∧ cause.isArithmetic ∧
        eval g e m = .fault { cause, span := some bad.span } m) ∧
    ∀ (left right : Expr) (s t : Span) (a b q r : Int), left.exact ρ = a → right.exact ρ = b →
      (Expr.binary s .div left right).exact ρ = q → (Expr.binary t .mod left right).exact ρ = r →
      a = q * b + r ∧ (0 ≤ a → 0 ≤ r) ∧ (a ≤ 0 → r ≤ 0) ∧ (b ≠ 0 → r.natAbs < b.natAbs) := by
  have exactly := exact_of_arithmetic (g := g) e arithmetic bound
  have fails : (∃ s ∈ e.postorder, ¬ s.isSound ρ) → ∃ bad cause,
      e.postorder.find? (!·.isSound ρ) = some bad ∧ cause.isArithmetic ∧
        eval g e m = .fault { cause, span := some bad.span } m := by
    rintro ⟨s, inside, unsound⟩
    have some : (e.postorder.find? (!·.isSound ρ)).isSome :=
      List.find?_isSome.mpr ⟨s, inside, by simpa using unsound⟩
    obtain ⟨bad, found⟩ := Option.isSome_iff_exists.mp some
    obtain ⟨cause, isCause, failed⟩ := exactly.fault bad found
    exact ⟨bad, cause, found, isCause, failed⟩
  refine ⟨fun x => ⟨?_, ?_⟩, fails, ?_⟩
  · rintro ⟨v, ran, isInt⟩
    by_cases sound : ∀ s ∈ e.postorder, s.isSound ρ
    · obtain ⟨y, ⟨w, ran', -, isInt'⟩, value⟩ := exactly.ok sound
      obtain ⟨rfl, -⟩ := Outcome.ok.inj (ran.symm.trans ran')
      obtain rfl := Value.int.inj (isInt.symm.trans isInt')
      exact ⟨sound, value⟩
    · obtain ⟨bad, cause, -, -, failed⟩ := fails (by simpa using sound)
      cases ran.symm.trans failed
  · rintro ⟨sound, value⟩
    obtain ⟨y, ⟨v, ran, -, isInt⟩, value'⟩ := exactly.ok sound
    obtain rfl : y = x := Int64.toInt_inj.mp (value'.trans value.symm)
    exact ⟨v, ran, isInt⟩
  · rintro left right s t a b q r rfl rfl rfl rfl
    exact quotient_remainder (left.exact ρ) (right.exact ρ)

/-- With the least integer in `x` and seven in `y`: the value of `x / y - -3 % y`, and the place
where `(x - 1) * (y / (y - 7))` fails, before the division by zero. -/
theorem eval_exact_least :
    let g := (Env.standard {}).engine 0
    let m : Machine :=
      { heap := { cells := #[.fresh (.int Int64.minValue), .fresh (.int 7)] }
        scopes := (Scopes.global.define "x" ⟨0⟩).define "y" ⟨1⟩ }
    let x : Expr := .var ⟨0, 1⟩ "x"
    let y : Expr := .var ⟨4, 5⟩ "y"
    let value : Expr := .binary ⟨0, 14⟩ .sub (.binary ⟨0, 5⟩ .div x y)
      (.binary ⟨8, 14⟩ .mod (.unary ⟨8, 10⟩ .neg (.int ⟨9, 10⟩ 3)) y)
    let failure : Expr := .binary ⟨0, 23⟩ .mul (.binary ⟨1, 6⟩ .sub x (.int ⟨5, 6⟩ 1))
      (.binary ⟨10, 22⟩ .div y (.binary ⟨15, 21⟩ .sub y (.int ⟨20, 21⟩ 7)))
    (∃ v, eval g value m = .ok v m ∧ v.value = .int (-1317624576693539398)) ∧
      ∃ cause, cause.isArithmetic ∧ eval g failure m = .fault { cause, span := some ⟨1, 6⟩ } m := by
  intro g m x y value failure
  let ρ : String → Int := fun name => if name = "x" then Int64.minValue.toInt else 7
  have holds : m.HasInt "x" (ρ "x") ∧ m.HasInt "y" (ρ "y") :=
    ⟨⟨_, _, rfl, rfl, rfl, rfl⟩, ⟨_, _, rfl, rfl, rfl, rfl⟩⟩
  constructor
  · refine ((eval_exact g m (ρ := ρ) (e := value) rfl fun span name inside => ?_).1 _).mpr
      ⟨by decide +kernel, by decide +kernel⟩
    simp [value, x, y, Expr.postorder] at inside
    rcases inside with ⟨-, rfl⟩ | ⟨-, rfl⟩
    · exact holds.1
    · exact holds.2
  · obtain ⟨-, fails, -⟩ := eval_exact g m (ρ := ρ) (e := failure) rfl fun span name inside => by
      simp [failure, x, y, Expr.postorder] at inside
      rcases inside with ⟨-, rfl⟩ | ⟨-, rfl⟩
      · exact holds.1
      · exact holds.2
    obtain ⟨bad, cause, found, arithmetic, failed⟩ := fails (by decide +kernel)
    have first : (failure.postorder.find? (!·.isSound ρ)).map Expr.span = some ⟨1, 6⟩ := by
      decide +kernel
    rw [found] at first
    rw [Option.some.inj first] at failed
    exact ⟨cause, arithmetic, failed⟩

end Machine

end TraceLang
