/-
# TraceLang.Proofs.Visibility — the list of visible names

The visible names of a stack of scopes are collected scope by scope, from the innermost one
out, and a name that is already listed is passed over. So each name is listed once, at the
place of the innermost scope that binds it (`Scopes.InnermostAt`), and `Precedes` says which
of two names comes first.

The list is then the only one that has these names in this order: it depends on which names
each scope binds, but not on how they came there. The same holds for the names that are
proposed for a mistyped one, since they are taken from this list.

Names of one scope are in the order of their characters. For texts in UTF-8 this is the order
of their bytes (`lt_iff_utf8Bytes_lt`).
-/
import TraceLang.Machine.Eval
import TraceLang.Proofs.Scopes

namespace TraceLang

set_option autoImplicit false

/-! ## Bytes and characters -/

section Bytes

/-- The bytes of a text. -/
def utf8Bytes (s : String) : List UInt8 :=
  s.toByteArray.data.toList

theorem utf8Bytes_eq (s : String) : utf8Bytes s = s.toList.flatMap String.utf8EncodeChar := by
  rw [utf8Bytes, ← String.utf8Encode_toList, List.utf8Encode, List.data_toByteArray]

theorem ofNat_lt_ofNat {m n : Nat} (small : m < 256) (small' : n < 256) :
    UInt8.ofNat m < UInt8.ofNat n ↔ m < n := by
  rw [UInt8.lt_iff_toNat_lt, UInt8.toNat_ofNat_of_lt' small, UInt8.toNat_ofNat_of_lt' small']

theorem ofNat_eq_ofNat {m n : Nat} (small : m < 256) (small' : n < 256) :
    UInt8.ofNat m = UInt8.ofNat n ↔ m = n := by
  rw [← UInt8.toNat_inj, UInt8.toNat_ofNat_of_lt' small, UInt8.toNat_ofNat_of_lt' small']

/-- A character is one byte, or a first byte that tells how many follow, and one byte for each
further digit to the base 64. -/
theorem utf8EncodeChar_cases (c : Char) :
    (c.toNat < 128 ∧ String.utf8EncodeChar c = [.ofNat c.toNat]) ∨
    (128 ≤ c.toNat ∧ c.toNat / 64 < 32 ∧
      String.utf8EncodeChar c = [.ofNat (c.toNat / 64 + 192), .ofNat (c.toNat % 64 + 128)]) ∨
    (32 ≤ c.toNat / 64 ∧ c.toNat / 64 / 64 < 16 ∧ String.utf8EncodeChar c =
      [.ofNat (c.toNat / 64 / 64 + 224), .ofNat (c.toNat / 64 % 64 + 128),
        .ofNat (c.toNat % 64 + 128)]) ∨
    (16 ≤ c.toNat / 64 / 64 ∧ c.toNat / 64 / 64 / 64 < 8 ∧ String.utf8EncodeChar c =
      [.ofNat (c.toNat / 64 / 64 / 64 + 240), .ofNat (c.toNat / 64 / 64 % 64 + 128),
        .ofNat (c.toNat / 64 % 64 + 128), .ofNat (c.toNat % 64 + 128)]) := by
  have bound : c.toNat < 1114112 := by
    rcases c.valid with low | high
    · exact Nat.lt_trans low (by decide)
    · exact high.2
  have twice : c.toNat / 64 / 64 = c.toNat / 4096 := Nat.div_div_eq_div_mul ..
  have thrice : c.toNat / 4096 / 64 = c.toNat / 262144 := Nat.div_div_eq_div_mul ..
  simp only [String.utf8EncodeChar, Char.toNat_val, twice, thrice]
  by_cases one : c.toNat ≤ 127
  · exact .inl ⟨by omega, if_pos one⟩
  by_cases two : c.toNat ≤ 2047
  · rw [if_neg one, if_pos two, Nat.mod_eq_of_lt (by omega : c.toNat / 64 < 32)]
    exact .inr (.inl ⟨by omega, by omega, rfl⟩)
  by_cases three : c.toNat ≤ 65535
  · rw [if_neg one, if_neg two, if_pos three, Nat.mod_eq_of_lt (by omega : c.toNat / 4096 < 16)]
    exact .inr (.inr (.inl ⟨by omega, by omega, rfl⟩))
  · rw [if_neg one, if_neg two, if_neg three,
      Nat.mod_eq_of_lt (by omega : c.toNat / 262144 < 8)]
    exact .inr (.inr (.inr ⟨by omega, by omega, rfl⟩))

/-- A smaller character differs in some byte from a larger one, and the first such byte is
smaller. If they differ in length it is the first byte of all. -/
theorem utf8EncodeChar_lt {c d : Char} (less : c < d) (bs bs' : List UInt8) :
    String.utf8EncodeChar c ++ bs < String.utf8EncodeChar d ++ bs' := by
  have order : c.toNat < d.toNat := less
  rcases utf8EncodeChar_cases c with ⟨_, is⟩ | ⟨_, _, is⟩ | ⟨_, _, is⟩ | ⟨_, _, is⟩ <;>
    rcases utf8EncodeChar_cases d with ⟨_, is'⟩ | ⟨_, _, is'⟩ | ⟨_, _, is'⟩ | ⟨_, _, is'⟩ <;>
    rw [is, is'] <;>
    simp (disch := omega) only [List.cons_append, List.nil_append, List.cons_lt_cons_iff,
      ofNat_lt_ofNat, ofNat_eq_ofNat] <;>
    omega

theorem utf8Bytes_lt {s s' : String} (less : s < s') : utf8Bytes s < utf8Bytes s' := by
  have chars : s.toList < s'.toList := String.lt_iff.mp less
  rw [utf8Bytes_eq, utf8Bytes_eq]
  generalize s.toList = cs, s'.toList = ds at chars
  induction ds generalizing cs with
  | nil => exact absurd chars (List.not_lt_nil cs)
  | cons d ds ih =>
    cases cs with
    | nil =>
      rw [List.flatMap_nil, List.flatMap_cons]
      rcases utf8EncodeChar_cases d with ⟨_, is⟩ | ⟨_, _, is⟩ | ⟨_, _, is⟩ | ⟨_, _, is⟩ <;> rw [is] <;>
        exact List.nil_lt_cons ..
    | cons c cs =>
      rw [List.flatMap_cons, List.flatMap_cons]
      rcases List.cons_lt_cons_iff.mp chars with first | ⟨rfl, rest⟩
      · exact utf8EncodeChar_lt first _ _
      · exact List.append_left_lt (ih cs rest)

/-- The order of texts is that of their bytes. -/
theorem lt_iff_utf8Bytes_lt {s s' : String} : s < s' ↔ utf8Bytes s < utf8Bytes s' := by
  refine ⟨utf8Bytes_lt, fun less => Decidable.byContradiction fun notLess => ?_⟩
  by_cases same : s = s'
  · subst same
    exact List.lt_irrefl _ less
  · have more : s' < s := Decidable.byContradiction fun notMore =>
      same (String.le_antisymm notMore notLess)
    exact List.lt_asymm less (utf8Bytes_lt more)

end Bytes

namespace Scopes

/-! ## One scope -/

section One

variable {scope : Scope} {names found : List String} {x : String}

theorem mem_names : x ∈ scope.names ↔ (scope.lookup x).isSome := by
  rw [Scope.names, List.mem_mergeSort, List.lookup_isSome_iff, List.mem_map]
  exact exists_congr fun entry => and_congr_right fun _ => by rw [beq_iff_eq, eq_comm]

theorem names_sorted (scope : Scope) : scope.names.Pairwise (· ≤ ·) := by
  have sorted : scope.names.Pairwise fun a b => decide (a ≤ b) = true := by
    refine List.pairwise_mergeSort (fun a b c first second => ?_) (fun a b => ?_) _
    · exact decide_eq_true (String.le_trans (of_decide_eq_true first) (of_decide_eq_true second))
    · simpa using String.le_total a b
  exact sorted.imp of_decide_eq_true

theorem mem_addNames : x ∈ addNames found names ↔ x ∈ found ∨ x ∈ names := by
  induction names generalizing found with
  | nil => simp [addNames]
  | cons name names ih =>
    rw [addNames, ih, List.mem_cons]
    split
    · next listed =>
      constructor
      · exact Or.imp_right .inr
      · rintro (old | rfl | new)
        · exact .inl old
        · exact .inl listed
        · exact .inr new
    · rw [List.mem_append, List.mem_singleton, or_assoc]

/-- Names that are added keep to an order in which new names come behind the old ones, and
the new ones as they are sorted. -/
theorem addNames_pairwise {before : String → String → Prop} (ordered : found.Pairwise before)
    (sorted : names.Pairwise (· ≤ ·))
    (behind : ∀ x ∈ found, ∀ y ∈ names, y ∉ found → before x y)
    (inside : ∀ x ∈ names, ∀ y ∈ names, x ∉ found → y ∉ found → x < y → before x y) :
    (addNames found names).Pairwise before := by
  induction names generalizing found with
  | nil => exact ordered
  | cons name names ih =>
    obtain ⟨least, sorted⟩ := List.pairwise_cons.mp sorted
    rw [addNames]
    split
    · refine ih ordered sorted (fun x old y mem => ?_) fun x mem y mem' => ?_
      · exact behind x old y (List.mem_cons_of_mem _ mem)
      · exact inside x (List.mem_cons_of_mem _ mem) y (List.mem_cons_of_mem _ mem')
    · next isNew =>
      have notOld {z : String} (new : z ∉ found ++ [name]) : z ∉ found ∧ z ≠ name := by
        simpa using new
      refine ih ?_ sorted (fun x old y mem new => ?_) fun x mem y mem' new new' => ?_
      · refine List.pairwise_append.mpr ⟨ordered, List.pairwise_singleton _ _, ?_⟩
        intro x old y last
        rw [List.mem_singleton.mp last]
        exact behind x old name (List.mem_cons_self ..) isNew
      · rcases List.mem_append.mp old with old | last
        · exact behind x old y (List.mem_cons_of_mem _ mem) (notOld new).1
        · rw [List.mem_singleton.mp last]
          have less : name < y := Decidable.byContradiction fun notLess =>
            (notOld new).2 (String.le_antisymm notLess (least y mem))
          exact inside name (List.mem_cons_self ..) y (List.mem_cons_of_mem _ mem) isNew
            (notOld new).1 less
      · exact inside x (List.mem_cons_of_mem _ mem) y (List.mem_cons_of_mem _ mem') (notOld new).1
          (notOld new').1

end One

/-! ## Scopes, from the global one up -/

/-- What the name denotes in the scope with this number. -/
def bindingIn (scopes : List Scope) (level : Nat) (name : String) : Option CellId :=
  scopes[level]?.bind fun scope => scope.lookup name

/-- The scope with this number is the innermost one that binds the name. -/
structure InnermostIn (scopes : List Scope) (level : Nat) (name : String) : Prop where
  binds : (bindingIn scopes level name).isSome
  last : ∀ level', level < level' → bindingIn scopes level' name = none

/-- The names of the scopes, from the last one on. -/
def listed (scopes : List Scope) : List String :=
  scopes.foldr (fun scope found => addNames found scope.names) []

/-- The order in which names are listed: by the innermost scopes that bind them, the last
scope first, and then by their characters. -/
def Precedes (scopes : List Scope) (x y : String) : Prop :=
  ∃ i j, InnermostIn scopes i x ∧ InnermostIn scopes j y ∧ (j < i ∨ i = j ∧ x < y)

section Several

variable {scope : Scope} {scopes : List Scope} {x y : String} {i j : Nat}

theorem InnermostIn.outward (innermost : InnermostIn scopes i x) :
    InnermostIn (scope :: scopes) (i + 1) x where
  binds := innermost.binds
  last
    | 0, above => absurd above (Nat.not_lt_zero _)
    | level + 1, above => innermost.last level (Nat.lt_of_succ_lt_succ above)

theorem innermostIn_first (binds : (scope.lookup x).isSome)
    (unbound : ∀ level, bindingIn scopes level x = none) : InnermostIn (scope :: scopes) 0 x where
  binds := binds
  last
    | 0, above => absurd above (Nat.lt_irrefl _)
    | level + 1, _ => unbound level

theorem InnermostIn.unique (innermost : InnermostIn scopes i x)
    (innermost' : InnermostIn scopes j x) : i = j := by
  rcases Nat.lt_trichotomy i j with less | same | more
  · have none := innermost.last j less
    exact absurd innermost'.binds (by simp [none])
  · exact same
  · have none := innermost'.last i more
    exact absurd innermost.binds (by simp [none])

/-- A name is listed if some scope binds it. -/
theorem mem_listed : x ∈ listed scopes ↔ ∃ scope ∈ scopes, (scope.lookup x).isSome := by
  induction scopes with
  | nil => simp [listed]
  | cons scope scopes ih =>
    simp only [List.mem_cons, exists_eq_or_imp]
    rw [← ih, ← mem_names, or_comm]
    exact mem_addNames

theorem unbound_of_not_mem (missing : x ∉ listed scopes) (level : Nat) :
    bindingIn scopes level x = none := by
  cases found : scopes[level]? with
  | none => simp [bindingIn, found]
  | some scope =>
    have unbound : ¬(scope.lookup x).isSome := fun binds =>
      missing (mem_listed.mpr ⟨scope, List.mem_of_getElem? found, binds⟩)
    rw [bindingIn, found, Option.bind_some]
    exact Option.not_isSome_iff_eq_none.mp unbound

theorem exists_innermostIn (mem : x ∈ listed scopes) : ∃ level, InnermostIn scopes level x := by
  induction scopes with
  | nil => cases mem
  | cons scope scopes ih =>
    by_cases inner : x ∈ listed scopes
    · obtain ⟨level, innermost⟩ := ih inner
      exact ⟨level + 1, innermost.outward⟩
    · have here := (mem_addNames.mp mem).resolve_left inner
      exact ⟨0, innermostIn_first (mem_names.mp here) (unbound_of_not_mem inner)⟩

/-- A search from the last scope on finds the binding of the innermost scope. -/
theorem findSome?_of_innermostIn (innermost : InnermostIn scopes i x) :
    scopes.reverse.findSome? (fun scope => scope.lookup x) = bindingIn scopes i x := by
  induction scopes generalizing i with
  | nil => rfl
  | cons scope scopes ih =>
    rw [List.reverse_cons, List.findSome?_append]
    cases i with
    | zero =>
      have none : scopes.reverse.findSome? (fun scope => scope.lookup x) = none := by
        rw [List.findSome?_eq_none_iff]
        intro scope' mem
        obtain ⟨level, inside, rfl⟩ := List.mem_iff_getElem.mp (List.mem_reverse.mp mem)
        have unbound := innermost.last (level + 1) (Nat.succ_pos level)
        simpa [bindingIn, inside] using unbound
      rw [none]
      simp [bindingIn]
    | succ i =>
      have inner : InnermostIn scopes i x :=
        ⟨innermost.binds, fun level above => innermost.last (level + 1) (Nat.succ_lt_succ above)⟩
      rw [ih inner]
      obtain ⟨c, bound⟩ := Option.isSome_iff_exists.mp inner.binds
      rw [bound, Option.some_or]
      exact bound.symm

theorem Precedes.outward (precedes : Precedes scopes x y) : Precedes (scope :: scopes) x y := by
  obtain ⟨i, j, ofX, ofY, order⟩ := precedes
  exact ⟨i + 1, j + 1, ofX.outward, ofY.outward,
    order.imp Nat.succ_lt_succ (And.imp_left (congrArg (· + 1)))⟩

theorem Precedes.iff (ofX : InnermostIn scopes i x) (ofY : InnermostIn scopes j y) :
    Precedes scopes x y ↔ j < i ∨ i = j ∧ x < y := by
  constructor
  · rintro ⟨i', j', ofX', ofY', order⟩
    rw [ofX.unique ofX', ofY.unique ofY']
    exact order
  · exact fun order => ⟨i, j, ofX, ofY, order⟩

theorem Precedes.asymm (precedes : Precedes scopes x y) : ¬Precedes scopes y x := by
  obtain ⟨i, j, ofX, ofY, order⟩ := precedes
  rw [Precedes.iff ofY ofX]
  rintro (less | ⟨same, less⟩)
  · omega
  · exact String.lt_asymm less (order.resolve_left (by omega)).2

/-- Names are listed in their order: this holds after each scope. -/
theorem listed_pairwise (scopes : List Scope) : (listed scopes).Pairwise (Precedes scopes) := by
  induction scopes with
  | nil => exact .nil
  | cons scope scopes ih =>
    have here {z : String} (mem : z ∈ scope.names) (isNew : z ∉ listed scopes) :
        InnermostIn (scope :: scopes) 0 z :=
      innermostIn_first (mem_names.mp mem) (unbound_of_not_mem isNew)
    refine addNames_pairwise (ih.imp Precedes.outward) (names_sorted scope)
      (fun x old y mem isNew => ?_) fun x mem y mem' isNew isNew' less => ?_
    · obtain ⟨level, innermost⟩ := exists_innermostIn old
      exact ⟨level + 1, 0, innermost.outward, here mem isNew, .inl (Nat.succ_pos level)⟩
    · exact ⟨0, 0, here mem isNew, here mem' isNew', .inr ⟨rfl, less⟩⟩

theorem listed_nodup (scopes : List Scope) : (listed scopes).Nodup :=
  (listed_pairwise scopes).imp fun precedes same => (same ▸ precedes).asymm (same ▸ precedes)

/-- The first of two names that are listed is the one that precedes. -/
theorem idxOf_lt_iff_precedes (mem : x ∈ listed scopes) (mem' : y ∈ listed scopes) :
    (listed scopes).idxOf x < (listed scopes).idxOf y ↔ Precedes scopes x y := by
  have inside := List.idxOf_lt_length_of_mem mem
  have inside' := List.idxOf_lt_length_of_mem mem'
  have ordered := List.pairwise_iff_getElem.mp (listed_pairwise scopes)
  constructor
  · intro less
    simpa using ordered _ _ inside inside' less
  · intro precedes
    rcases Nat.lt_trichotomy ((listed scopes).idxOf x) ((listed scopes).idxOf y) with less | same | more
    · exact less
    · have first := List.getElem_idxOf inside
      have second := List.getElem_idxOf inside'
      simp only [same] at first
      obtain rfl : x = y := first.symm.trans second
      exact absurd precedes precedes.asymm
    · exact absurd precedes (by simpa using (ordered _ _ inside' inside more).asymm)

end Several

/-! ## Visible names -/

variable {s s' : Scopes} {name x y : String} {i j : Nat}

/-- The scope with this number is the innermost one of the stack that binds the name. -/
def InnermostAt (s : Scopes) : Nat → String → Prop :=
  InnermostIn s.stack.toList

/-- Scope by scope, the stacks bind the same names. -/
def SameNames (s s' : Scopes) : Prop :=
  ∀ level name, (s.binding? level name).isSome = (s'.binding? level name).isSome

/-- Bind some names in the innermost scope, one after another. -/
def defineAll (s : Scopes) (entries : List (String × CellId)) : Scopes :=
  entries.foldl (fun s entry => s.define entry.1 entry.2) s

theorem bindingIn_toList (s : Scopes) (level : Nat) (name : String) :
    bindingIn s.stack.toList level name = s.binding? level name := by
  rw [bindingIn, Array.getElem?_toList, binding?]

theorem visibleNames_eq_listed (s : Scopes) : s.visibleNames = listed s.stack.toList := by
  rw [visibleNames, List.foldl_reverse]
  rfl

theorem find?_eq_findSome? (s : Scopes) (name : String) :
    s.find? name = s.stack.toList.reverse.findSome? fun scope => scope.lookup name := by
  rw [find?, Array.findSomeRev?_eq_findSome?_reverse, ← Array.findSome?_toList,
    Array.toList_reverse]

theorem InnermostAt.find?_eq (innermost : s.InnermostAt i name) :
    s.find? name = s.binding? i name := by
  rw [find?_eq_findSome?, findSome?_of_innermostIn innermost, bindingIn_toList]

theorem mem_visibleNames : name ∈ s.visibleNames ↔ (s.find? name).isSome := by
  rw [visibleNames_eq_listed, mem_listed, find?_eq_findSome?, List.findSome?_isSome_iff]
  simp only [List.mem_reverse]

theorem exists_innermostAt (mem : name ∈ s.visibleNames) : ∃ level, s.InnermostAt level name :=
  exists_innermostIn (visibleNames_eq_listed s ▸ mem)

theorem InnermostAt.mem (innermost : s.InnermostAt i name) : name ∈ s.visibleNames := by
  rw [mem_visibleNames, innermost.find?_eq, ← bindingIn_toList]
  exact innermost.binds

/-! ## Stacks that bind the same names -/

theorem SameNames.symm (same : s.SameNames s') : s'.SameNames s :=
  fun level name => (same level name).symm

theorem SameNames.innermostAt (same : s.SameNames s') (innermost : s.InnermostAt i name) :
    s'.InnermostAt i name where
  binds := by
    rw [bindingIn_toList, ← same, ← bindingIn_toList]
    exact innermost.binds
  last level above := by
    have unbound := innermost.last level above
    rw [bindingIn_toList] at unbound ⊢
    rw [← Option.not_isSome_iff_eq_none, ← same, unbound]
    simp

theorem SameNames.mem_visibleNames (same : s.SameNames s') (mem : name ∈ s.visibleNames) :
    name ∈ s'.visibleNames := by
  obtain ⟨level, innermost⟩ := exists_innermostAt mem
  exact (same.innermostAt innermost).mem

/-- There is only one list that has the names in their order, each once. -/
theorem SameNames.visibleNames_eq (same : s.SameNames s') : s'.visibleNames = s.visibleNames := by
  have mem : ∀ name, name ∈ s'.visibleNames ↔ name ∈ s.visibleNames := fun name =>
    ⟨same.symm.mem_visibleNames, same.mem_visibleNames⟩
  have precedes {x y : String} (before : Precedes s'.stack.toList x y) :
      Precedes s.stack.toList x y := by
    obtain ⟨i, j, ofX, ofY, order⟩ := before
    exact ⟨i, j, same.symm.innermostAt ofX, same.symm.innermostAt ofY, order⟩
  simp only [visibleNames_eq_listed] at mem ⊢
  refine List.Perm.eq_of_pairwise (fun x y _ _ before after => ?_)
    ((listed_pairwise _).imp precedes) (listed_pairwise _) ?_
  · exact absurd after before.asymm
  · exact (List.perm_ext_iff_of_nodup (listed_nodup _) (listed_nodup _)).mpr mem

theorem isSome_binding?_defineAll (s : Scopes) (entries : List (String × CellId)) (level : Nat)
    (name : String) :
    ((s.defineAll entries).binding? level name).isSome ↔
      level + 1 = s.depth ∧ name ∈ entries.map Prod.fst ∨ (s.binding? level name).isSome := by
  induction entries generalizing s with
  | nil => simp [defineAll]
  | cons entry entries ih =>
    have step : s.defineAll (entry :: entries) = (s.define entry.1 entry.2).defineAll entries := rfl
    rw [step, ih, depth_define, binding?_define, List.map_cons, List.mem_cons]
    split
    · next here => simp [here]
    · next other =>
      have notHere : ¬(level + 1 = s.depth ∧ name = entry.1) := other
      constructor
      · exact Or.imp_left (And.imp_right .inr)
      · rintro (⟨here, rfl | later⟩ | binds)
        · exact absurd ⟨here, rfl⟩ notHere
        · exact .inl ⟨here, later⟩
        · exact .inr binds

/-- Names that are defined in another order are bound all the same. -/
theorem sameNames_of_perm {entries entries' : List (String × CellId)}
    (perm : entries.Perm entries') : (s.defineAll entries).SameNames (s.defineAll entries') := by
  intro level name
  rw [Bool.eq_iff_iff, isSome_binding?_defineAll, isSome_binding?_defineAll,
    (perm.map Prod.fst).mem_iff]

theorem SameNames.find?_eq_none (same : s.SameNames s') (missing : s.find? name = none) :
    s'.find? name = none := by
  have notVisible : name ∉ s.visibleNames := by simp [Scopes.mem_visibleNames, missing]
  rw [← same.visibleNames_eq, Scopes.mem_visibleNames] at notVisible
  exact Option.not_isSome_iff_eq_none.mp notVisible

end Scopes

open Scopes

theorem Machine.locate_missing {m : Machine} {name : String} (missing : m.scopes.find? name = none) :
    locate name m =
      .fault { cause := .undefinedVariable name (similarName name m.scopes.visibleNames 2) } m := by
  rw [locate, missing]

/-- The visible names are those that denote something, each of them once. They are in the order
of the innermost scopes that bind them, the innermost scope of all first, and inside of a scope
in the order of their bytes. The list, and with it the name that is proposed for one that
denotes nothing, depends on which names each scope binds and not on the order in which they were
defined. -/
theorem visibleNames_ordered :
    (∀ (s : Scopes) (name : String), name ∈ s.visibleNames ↔ (s.find? name).isSome) ∧
    (∀ s : Scopes, s.visibleNames.Nodup) ∧
    (∀ (s : Scopes) (name : String), name ∈ s.visibleNames →
      ∃ level, s.InnermostAt level name ∧ s.find? name = s.binding? level name) ∧
    (∀ (s : Scopes) (x y : String) (i j : Nat), s.InnermostAt i x → s.InnermostAt j y →
      (s.visibleNames.idxOf x < s.visibleNames.idxOf y ↔
        j < i ∨ i = j ∧ utf8Bytes x < utf8Bytes y)) ∧
    (∀ s s' : Scopes, s.SameNames s' → s'.visibleNames = s.visibleNames) ∧
    (∀ (m m' : Machine) (name : String), m.scopes.SameNames m'.scopes →
      m.scopes.find? name = none →
        ∃ fault, Machine.locate name m = .fault fault m ∧ Machine.locate name m' = .fault fault m') ∧
    ∀ (s : Scopes) (entries entries' : List (String × CellId)), entries.Perm entries' →
      (s.defineAll entries).SameNames (s.defineAll entries') := by
  refine ⟨fun s name => mem_visibleNames, fun s => ?_, fun s name mem => ?_,
    fun s x y i j ofX ofY => ?_, fun s s' => SameNames.visibleNames_eq,
    fun m m' name same missing => ?_, fun s entries entries' => sameNames_of_perm⟩
  · rw [visibleNames_eq_listed]
    exact listed_nodup _
  · obtain ⟨level, innermost⟩ := exists_innermostAt mem
    exact ⟨level, innermost, innermost.find?_eq⟩
  · have listed := ofX.mem
    have listed' := ofY.mem
    rw [visibleNames_eq_listed] at listed listed' ⊢
    rw [idxOf_lt_iff_precedes listed listed', Precedes.iff ofX ofY, lt_iff_utf8Bytes_lt]
  · refine ⟨_, Machine.locate_missing missing, ?_⟩
    rw [Machine.locate_missing (same.find?_eq_none missing), same.visibleNames_eq]

/-- A name that is bound twice stands with the names of the inner scope, also if these were
defined the other way round. -/
theorem visibleNames_ordered_shadowing :
    let base : Scopes := ⟨#[[("b", ⟨0⟩), ("a", ⟨1⟩)], []], by decide⟩
    let s := base.defineAll [("z", ⟨2⟩), ("a", ⟨3⟩)]
    let s' := base.defineAll [("a", ⟨3⟩), ("z", ⟨2⟩)]
    s.InnermostAt 1 "a" ∧ s.InnermostAt 1 "z" ∧ s.InnermostAt 0 "b" ∧
      "a" ∈ s.visibleNames ∧
      s.visibleNames.idxOf "a" < s.visibleNames.idxOf "z" ∧
      s.visibleNames.idxOf "z" < s.visibleNames.idxOf "b" ∧
      s.visibleNames.Nodup ∧ s'.visibleNames = s.visibleNames ∧
      s.find? "y" = none ∧ ∃ fault, Machine.locate "y" { scopes := s } = .fault fault { scopes := s } ∧
        Machine.locate "y" { scopes := s' } = .fault fault { scopes := s' } := by
  intro base s s'
  have none {level : Nat} (above : 1 < level) (name : String) :
      bindingIn s.stack.toList level name = none := by
    rw [bindingIn, List.getElem?_eq_none above]
    rfl
  have ofA : s.InnermostAt 1 "a" := ⟨by decide, fun level above => none above "a"⟩
  have ofZ : s.InnermostAt 1 "z" := ⟨by decide, fun level above => none above "z"⟩
  have ofB : s.InnermostAt 0 "b" := by
    refine ⟨by decide, fun level above => ?_⟩
    rcases Nat.lt_or_eq_of_le above with above | rfl
    · exact none above "b"
    · decide
  have missing : s.find? "y" = Option.none := by decide
  obtain ⟨visible, nodup, -, order, sameList, sameFault, perm⟩ := visibleNames_ordered
  have same : s.SameNames s' := perm base _ _ (List.Perm.swap _ _ _)
  exact ⟨ofA, ofZ, ofB, (visible s "a").mpr (by decide),
    (order s "a" "z" 1 1 ofA ofZ).mpr (.inr ⟨rfl, by decide⟩),
    (order s "z" "b" 1 0 ofZ ofB).mpr (.inl (by decide)), nodup s, sameList s s' same, missing,
    sameFault { scopes := s } { scopes := s' } "y" same missing⟩

end TraceLang
