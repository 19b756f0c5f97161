/-
# TraceLang.Proofs.Halting — programs without loops come to an end

Without loops, a program can go on only by calling functions, and calls inside each
other are limited: a call needs more fuel than the call around it by one, so
that a limit of `n` calls needs fuel for `n + 1` (`runBody_loopFree`). Functions may be
defined on the way, since they are free of loops as well.

A run that ends in the machine is a run that ends only if no single step goes on
for ever, and walks through lists that contain themselves could. Texts, copies,
comparisons and snapshots do not, by `Heap.summarizes`, `Heap.compares` and
`Heap.duplicates`. The full account of a value does: it is written without regard to
what is open (`Heap.Accounts`), and there is one only of values without cycles
(`Heap.exists_accounts_iff`). A program gives a full account of a value if that value
is returned by the program itself, which needs a function around the whole program.
So `loopFree_run_ends` has a third case, and `loopFree_run_never_ends` is a program for it.
-/
import TraceLang.Proofs.Accord
import TraceLang.Proofs.Control
import TraceLang.Proofs.Unfolding

namespace TraceLang

set_option autoImplicit false

/-! ## Full accounts -/

namespace Heap

variable {h : Heap} {v w : Value} {l k : ListId}

mutual

/-- The full account of a value, written along its lists. -/
inductive Accounts (h : Heap) : Value → String → Prop
  | none : Accounts h .none "None"
  | int (n : Int64) : Accounts h (.int n) ("Int(" ++ toString n.toInt ++ ")")
  | float (x : Binary64) : Accounts h (.float x) ("Float(" ++ x.text ++ ")")
  | bool (b : Bool) : Accounts h (.bool b) ("Bool(" ++ toString b ++ ")")
  | str (s : String) : Accounts h (.str s) ("Str(" ++ quoted s ++ ")")
  | list {l : ListId} {items : List String} (inside : AccountsAll h (h.elements l).toList items) :
    Accounts h (.list l) ("List(RefCell \x7b value: [" ++ ", ".intercalate items ++ "] \x7d)")

/-- The full accounts of the elements of a list. -/
inductive AccountsAll (h : Heap) : List CellId → List String → Prop
  | nil : AccountsAll h [] []
  | cons {c : CellId} {rest : List CellId} {value : String} {items : List String}
    (first : Accounts h (h.read c).value value) (others : AccountsAll h rest items) :
    AccountsAll h (c :: rest)
      (("RefCell \x7b value: " ++ variableDetail (h.read c) value ++ " \x7d") :: items)

end

theorem accountsAll_of_mapM {n : Nat} {opened : List ListId}
    (each : ∀ v account, h.valueDetail n opened v = some account → h.Accounts v account)
    {cells : List CellId} {items : List String}
    (written : cells.mapM (h.itemDetail n opened) = some items) : h.AccountsAll cells items := by
  induction cells generalizing items with
  | nil =>
    cases written
    exact .nil
  | cons c rest ih =>
    rw [List.mapM_cons] at written
    obtain ⟨item, first, others⟩ := Option.bind_eq_some_iff.mp written
    obtain ⟨items, ofRest, same⟩ := Option.bind_eq_some_iff.mp others
    obtain ⟨value, ofValue, same'⟩ := Option.bind_eq_some_iff.mp first
    cases same
    cases same'
    exact .cons (each _ _ ofValue) (ih ofRest)

/-- What is written with an eye on open lists is what would be written without it. -/
theorem accounts_of_valueDetail {n : Nat} {opened : List ListId} {account : String}
    (written : h.valueDetail n opened v = some account) : h.Accounts v account := by
  induction n generalizing opened v account with
  | zero =>
    cases v <;> cases written <;> constructor
  | succ n ih =>
    cases v with
    | list l =>
      rw [valueDetail_list] at written
      split at written
      · cases written
      · obtain ⟨items, inside, same⟩ := Option.bind_eq_some_iff.mp written
        cases same
        exact .list (accountsAll_of_mapM (fun _ _ => ih) inside)
    | none | int | float | bool | str =>
      cases written
      constructor

mutual

theorem Accounts.acyclic {v : Value} {account : String} : h.Accounts v account → h.Acyclic v
  | .none | .int _ | .float _ | .bool _ | .str _ =>
    fun _ reached => absurd reached (not_reaches_of_scalar rfl)
  | .list inside => acyclic_list fun w member => by
    obtain ⟨c, element, same⟩ := List.mem_map.mp member
    exact same ▸ inside.acyclic c element

theorem AccountsAll.acyclic {cells : List CellId} {items : List String} :
    h.AccountsAll cells items → ∀ c ∈ cells, h.Acyclic (h.read c).value
  | .nil => by simp
  | .cons first others => List.forall_mem_cons.mpr ⟨first.acyclic, others.acyclic⟩

end

theorem isSome_mapM {α β : Type} {f : α → Option β} {as : List α}
    (each : ∀ a ∈ as, (f a).isSome) : (as.mapM f).isSome := by
  induction as with
  | nil => rfl
  | cons a rest ih =>
    obtain ⟨first, others⟩ := List.forall_mem_cons.mp each
    obtain ⟨b, ofFirst⟩ := Option.isSome_iff_exists.mp first
    obtain ⟨bs, ofRest⟩ := Option.isSome_iff_exists.mp (ih others)
    simp [List.mapM_cons, ofFirst, ofRest]

/-- In a value without cycles no list that is open is met again, so that its full account is
written to the end. -/
theorem Acyclic.isSome_valueDetail {n : Nat} {opened : List ListId} (entered : Entered h n opened)
    (acyclic : h.Acyclic v) (apart : ∀ l ∈ opened, ¬ h.Reaches v l) :
    (h.valueDetail n opened v).isSome := by
  induction n generalizing opened v with
  | zero => exact absurd entered.positive (Nat.lt_irrefl 0)
  | succ n ih =>
    cases v with
    | list l =>
      have new : l ∉ opened := fun isOpen => apart l isOpen (.here rfl)
      rw [valueDetail_list, if_neg new]
      have items : ((h.elements l).toList.mapM (h.itemDetail n (l :: opened))).isSome := by
        refine isSome_mapM fun c element => ?_
        have member : (h.read c).value ∈ h.values l := List.mem_map_of_mem element
        have there : l.index < h.lists.size := lt_count_of_mem (Array.mem_toList_iff.mp element)
        have value : (h.valueDetail n (l :: opened) (h.read c).value).isSome := by
          refine ih (entered.cons new there) (acyclic.of_mem member) fun k isOpen reached => ?_
          rcases List.mem_cons.mp isOpen with rfl | before
          · exact acyclic k (.here rfl) _ member reached
          · exact apart k before (reached.of_mem member)
        obtain ⟨account, written⟩ := Option.isSome_iff_exists.mp value
        simp [itemDetail, written]
      obtain ⟨items, written⟩ := Option.isSome_iff_exists.mp items
      simp [written]
    | none | int | float | bool | str => rfl

theorem isSome_valueDetail_iff : (h.valueDetail (h.lists.size + 1) [] v).isSome ↔ h.Acyclic v := by
  constructor
  · intro written
    obtain ⟨account, written⟩ := Option.isSome_iff_exists.mp written
    exact (accounts_of_valueDetail written).acyclic
  · intro acyclic
    exact acyclic.isSome_valueDetail (entered_nil h) (by simp)

/-- There is a full account of a value if and only if it has no cycles. -/
theorem exists_accounts_iff : (∃ account, h.Accounts v account) ↔ h.Acyclic v := by
  constructor
  · rintro ⟨account, accounts⟩
    exact accounts.acyclic
  · intro acyclic
    obtain ⟨account, written⟩ := Option.isSome_iff_exists.mp (isSome_valueDetail_iff.mpr acyclic)
    exact ⟨account, accounts_of_valueDetail written⟩

theorem detail_eq_none_iff {v : Variable} : h.detail v = none ↔ ¬ h.Acyclic v.value := by
  rw [detail, Option.map_eq_none_iff, ← Option.not_isSome_iff_eq_none, isSome_valueDetail_iff]

end Heap

theorem Flow.exists_of_detail_eq_none {h : Heap} {flow : Flow} (endless : flow.detail h = none) :
    ∃ v, flow = .result (some v) ∧ ¬ h.Acyclic v.value := by
  cases flow with
  | next | leave | again => cases endless
  | result returned =>
    cases returned with
    | none => cases endless
    | some v => exact ⟨v, rfl, Heap.detail_eq_none_iff.mp (Option.map_eq_none_iff.mp endless)⟩

/-! ## Walks -/

/-- Walks through the lists of two values that end as the heap says, without any
bound on their length, except that a full account ends only without cycles. -/
structure Heap.Walks (h : Heap) (a b : Value) : Prop where
  equal : ∃ pairs, h.Compares [] a b (h.equal a b, pairs)
  copy : ∃ begun, Heap.Duplicates a { heap := h }
    ((h.deepCopy a).1, { heap := (h.deepCopy a).2, begun })
  text : a.isList → Heap.Summarizes Heap.leafText "[...]"
    (fun items => "[" ++ ", ".intercalate items ++ "]") h [] a (h.text a)
  account : (∃ account, h.Accounts a account) ↔ h.Acyclic a
  snapshot : Heap.Summarizes Heap.leafSnapshot (.str "[...]") .list h [] a (h.snapshot a)

/-- In a heap without dangling identities all walks end. -/
theorem Heap.walks {h : Heap} (grounded : h.Grounded) (wired : h.Wired) {a b : Value}
    (left : a.Within h.lists.size) : h.Walks a b where
  equal := ⟨_, (compares a b (undertaken_nil h)).1⟩
  copy := ⟨_, (duplicates grounded wired ⟨.refl h, entered_nil h⟩ left).1⟩
  text isList := by
    have ends := summarizes leafText "[...]" (fun items => "[" ++ ", ".intercalate items ++ "]")
      grounded (entered_nil h) left
    rw [← nestedText_eq] at ends
    cases a with
    | list l => exact ends
    | none | int | float | bool | str => cases isList
  account := exists_accounts_iff
  snapshot := by
    rw [Heap.snapshot, capture_eq]
    exact summarizes leafSnapshot (.str "[...]") .list grounded (entered_nil h) left

/-! ## Programs without loops -/

/-- There is no loop in the block, at any depth. -/
abbrev LoopFree (block : List Instr) : Prop :=
  Instr.EveryOf (fun i => i.isLoop = false) block

/-- All that is compared are loop-free programs, and none may run out of fuel. -/
def Accord.loopFree : Accord where
  admits i := i.isLoop = false
  excused _ := False
  hangs := False
  excused_locate _ := id
  excused_trace _ := id

namespace Machine

/-- The body of a loop-free program has one outcome, and any amount of fuel beyond the limit
on calls is enough for it. -/
theorem runBody_loopFree (settings : Settings) (unit : Nat) {body : List Instr}
    (free : LoopFree body) {m : Machine}
    (functions : ∀ name f, m.function? name = some f → LoopFree f.function.body) :
    ∃ r, r ≠ .outOfFuel ∧ ∀ fuel, settings.maxCallDepth < fuel →
      runBody ((Env.standard settings).engine fuel) unit body m = r := by
  have ready : m.Ready Accord.loopFree.admits m.stage :=
    ⟨rfl, fun name f found => ⟨{}, rfl, functions name f found⟩⟩
  have same : Loosened Accord.loopFree settings settings :=
    ⟨rfl, Nat.le_refl _, fun lt => absurd lt (Nat.lt_irrefl _)⟩
  have agrees (fuel : Nat) (enough : settings.maxCallDepth < fuel) :=
    have fueled : Fueled Accord.loopFree settings.maxCallDepth m.stage.calls
        (settings.maxCallDepth + 1) fuel :=
      .inr ⟨fun _ => id, by omega, by omega, by omega, by omega⟩
    runBlock_agrees (standard_alike same fueled) unit [] 0 m.stage.loops body free m ready
  refine ⟨runBody ((Env.standard settings).engine (settings.maxCallDepth + 1)) unit body m, ?_, ?_⟩
  · exact (agrees _ (Nat.lt_succ_self _)).ne_outOfFuel id
  · intro fuel enough
    rcases (agrees fuel enough).eq_or_excused with equal | ⟨_, _, -, excused⟩
    · exact equal
    · cases excused

variable {g : Engine} {unit : Nat} {prog : Program} {m m' : Machine}

theorem run_eq_of_next (body : runBody g unit prog.body m = .ok .next m') :
    run g unit prog m = .ok () m' := by
  show Action.bind (runBody g unit prog.body) _ m = _
  unfold Action.bind
  rw [body]
  rfl

theorem run_eq_of_flow {flow : Flow} (escapes : flow ≠ .next)
    (body : runBody g unit prog.body m = .ok flow m') :
    run g unit prog m = Action.stray .escaped flow m' := by
  show Action.bind (runBody g unit prog.body) _ m = _
  unfold Action.bind
  rw [body]
  cases flow with
  | next => exact absurd rfl escapes
  | leave | again | result => rfl

theorem run_eq_of_fault {f : Fault} (body : runBody g unit prog.body m = .fault f m') :
    run g unit prog m = .fault f m' := by
  show Action.bind (runBody g unit prog.body) _ m = _
  unfold Action.bind
  rw [body]

/-- A loop-free program, run where all functions are loop-free, ends with success
or with a fault, whatever the limit on calls, unless it returns a value with a cycle out
of a function that was entered around it, of which there is no full account. Every other
walk through lists ends. -/
theorem loopFree_run_ends (settings : Settings) (unit : Nat) {prog : Program}
    (free : LoopFree prog.body) {m : Machine}
    (functions : ∀ name f, m.function? name = some f → LoopFree f.function.body) :
    ((∃ m', ∀ fuel, settings.maxCallDepth < fuel →
        run ((Env.standard settings).engine fuel) unit prog m = .ok () m') ∨
      (∃ f m', ∀ fuel, settings.maxCallDepth < fuel →
        run ((Env.standard settings).engine fuel) unit prog m = .fault f m') ∨
      m.context.inFunction ∧ ∃ v m', ¬ m'.heap.Acyclic v.value ∧
        ∀ fuel, settings.maxCallDepth < fuel →
          runBody ((Env.standard settings).engine fuel) unit prog.body m =
              .ok (.result (some v)) m' ∧
            run ((Env.standard settings).engine fuel) unit prog m = .outOfFuel) ∧
    ∀ h : Heap, h.Grounded → h.Wired → ∀ a b : Value, a.Within h.lists.size → h.Walks a b := by
  refine ⟨?_, fun h grounded wired a b within => Heap.walks grounded wired within⟩
  obtain ⟨r, ended, runs⟩ := runBody_loopFree settings unit free functions
  cases r with
  | outOfFuel => exact absurd rfl ended
  | fault f m' => exact .inr (.inl ⟨f, m', fun fuel enough => run_eq_of_fault (runs fuel enough)⟩)
  | ok flow m' =>
    by_cases passes : flow = .next
    · subst passes
      exact .inl ⟨m', fun fuel enough => run_eq_of_next (runs fuel enough)⟩
    · have strays (fuel : Nat) (enough : settings.maxCallDepth < fuel) :=
        run_eq_of_flow passes (runs fuel enough)
      unfold Action.stray at strays
      cases account : flow.detail m'.heap with
      | some text =>
        rw [account] at strays
        exact .inr (.inl ⟨_, m', strays⟩)
      | none =>
        obtain ⟨v, rfl, cyclic⟩ := Flow.exists_of_detail_eq_none account
        rw [account] at strays
        -- A program can return something only inside a function.
        have call := standard_call_has (stacks_govern tolerates_all) settings
          (settings.maxCallDepth + 1)
        have legal : m.context.inFunction :=
          (runBlock_legal call unit [] 0 prog.body m).of_ok (runs _ (Nat.lt_succ_self _))
        exact .inr (.inr ⟨legal, v, m', cyclic, fun fuel enough =>
          ⟨runs fuel enough, strays fuel enough⟩⟩)

/-- A recursion on a list that contains itself, with a function defined inside it;
and a comparison of such a list with itself. -/
theorem loopFree_run_ends_cyclic :
    (∃ prog, Program.read ("list a = []; append(a, a); func f(int n) \x7b if n > 0 " ++
        "\x7b return f(n - 1); \x7d func g() \x7b return f(9); \x7d return copy(a) == a; \x7d " ++
        "trace(a[0]); print(a, f(3)); print(g());") = .ok prog ∧ LoopFree prog.body ∧
      ((∃ m', ∀ fuel, 4 < fuel →
          run ((Env.standard { maxCallDepth := 4 }).engine fuel) 0 prog {} = .ok () m') ∨
        ∃ f m', ∀ fuel, 4 < fuel →
          run ((Env.standard { maxCallDepth := 4 }).engine fuel) 0 prog {} = .fault f m')) ∧
    Heap.Walks { cells := #[.fresh (.list ⟨1⟩)], lists := #[#[], #[⟨0⟩]] }
      (.list ⟨1⟩) (.list ⟨1⟩) := by
  have checked : (Program.read ("list a = []; append(a, a); func f(int n) \x7b if n > 0 " ++
      "\x7b return f(n - 1); \x7d func g() \x7b return f(9); \x7d return copy(a) == a; \x7d " ++
      "trace(a[0]); print(a, f(3)); print(g());")).toOption.any
        fun prog => decide (LoopFree prog.body) := by decide +kernel
  obtain ⟨prog, read, holds⟩ := (Option.any_eq_true _ _).mp checked
  have free : LoopFree prog.body := of_decide_eq_true holds
  obtain ⟨ended, walks⟩ :=
    loopFree_run_ends { maxCallDepth := 4 } 0 free (m := {}) (by rintro _ _ ⟨⟩)
  refine ⟨⟨prog, Except.eq_of_toOption read, free, ?_⟩, walks _ ?_ ?_ _ _ ?_⟩
  · exact ended.imp_right fun other => other.resolve_right fun entered => by
      simp [Context.inFunction] at entered
  · rintro ⟨_ | i⟩ l isList
    · cases isList
      decide
    · cases isList
  · rintro ⟨_ | _ | l⟩ c member
    · simp [Heap.elements] at member
    · have first : c = ⟨0⟩ := by simpa [Heap.elements] using member
      subst first
      decide
    · simp [Heap.elements] at member
  · exact Value.fits_list (by decide)

/-- A new machine on which a function has been entered. -/
def insideFunction : Machine :=
  { context := ({} : Context).push { status := .userFunction, span := {} } }

/-- A list that contains itself, returned under a function that was entered around the
program: the fault would tell the whole value, and telling it takes for ever. -/
theorem loopFree_run_never_ends :
    ∃ prog, Program.read "list a = []; append(a, a); return a;" = .ok prog ∧ LoopFree prog.body ∧
      ∀ fuel, ({} : Settings).maxCallDepth < fuel →
        run ((Env.standard {}).engine fuel) 0 prog insideFunction = .outOfFuel := by
  have checked : (Program.read "list a = []; append(a, a); return a;").toOption.any fun prog =>
      decide (LoopFree prog.body) &&
        (runBody ((Env.standard {}).engine (({} : Settings).maxCallDepth + 1)) 0 prog.body
          insideFunction).ok?.any fun (flow, m') =>
            decide (flow ≠ .next) && (flow.detail m'.heap).isNone := by
    decide +kernel
  obtain ⟨prog, found, holds⟩ := (Option.any_eq_true _ _).mp checked
  obtain ⟨isFree, ended⟩ := (Bool.and_eq_true _ _).mp holds
  obtain ⟨⟨flow, m'⟩, returned, strays⟩ := (Option.any_eq_true _ _).mp ended
  obtain ⟨escapes, endless⟩ := (Bool.and_eq_true _ _).mp strays
  have free : LoopFree prog.body := of_decide_eq_true isFree
  refine ⟨prog, Except.eq_of_toOption found, free, fun fuel enough => ?_⟩
  -- Whatever the fuel, the body returns the same list.
  obtain ⟨r, -, runs⟩ := runBody_loopFree {} 0 free (m := insideFunction) (by rintro _ _ ⟨⟩)
  have body := (runs fuel enough).trans
    ((runs _ (Nat.lt_succ_self _)).symm.trans (Outcome.eq_of_ok? returned))
  rw [run_eq_of_flow (of_decide_eq_true escapes) body]
  unfold Action.stray
  rw [Option.isNone_iff_eq_none.mp endless]

end Machine

end TraceLang
