import ThreeAddress.Proofs.Run
import ThreeAddress.Proofs.Tree

/-!
# Code with pending jumps and the plain translation

The generator emits the jumps of a condition before it knows where they lead
and fills in the targets later. This module shows, construct by construct, that
the outcome is the code of a tree.

* `Store.resolve` fills in a list of pending jumps, and `backpatch_run` says
  that `JumpList.backpatch` does just that if the jumps are `Waiting`.
  `Waiting.get?_resolve` says what stands in the store then.
* `Computes` says that the code of an expression was appended to a store and
  which operand holds its value.
* `Performs` says that a statement was appended to a store: the jumps that were
  to reach it go to its first instruction, or they are handed on if it has
  none.

The lemmas `Computes.…` and `Performs.…` have one case for each kind of tree.
They speak about stores and counters only, so they serve every account of what
the generator reads.
-/

set_option autoImplicit false

namespace ThreeAddress

/-! ### Appending and resolving -/

namespace Store

/-- The store with more instructions at its end. -/
def append (store : Store) (code : List Instruction) : Store :=
  { store with code := store.code ++ code.toArray }

/-- Nothing behind a store adds nothing to it. -/
@[simp] theorem append_nil (store : Store) : store.append [] = store := by
  simp [append]

/-- Code behind code is appended at once or in two parts. -/
@[simp] theorem append_append (store : Store) (xs ys : List Instruction) :
    (store.append xs).append ys = store.append (xs ++ ys) := by
  simp [append]

/-- One more instruction is an appended list of one. -/
theorem push_eq_append (store : Store) (instruction : Instruction) :
    store.push instruction = store.append [instruction] := by
  simp [push, append]

/-- The next address moves by the number of instructions. -/
@[simp] theorem nextAddress_append (store : Store) (code : List Instruction) :
    (store.append code).nextAddress = store.nextAddress + code.length := by
  simp [append, nextAddress, Nat.add_assoc]

/-- What is appended stands behind everything else. -/
theorem get?_append_of_lt {store : Store} {address : Nat} (h : address < store.nextAddress)
    (code : List Instruction) : (store.append code).get? address = store.get? address := by
  unfold nextAddress at h
  show (if address < store.first.toNat then none
    else (store.code ++ code.toArray)[address - store.first.toNat]?) = store.get? address
  unfold get?
  split
  · rfl
  · rw [Array.getElem?_append_left (by omega)]

/-- The appended instructions stand from the next address on. -/
theorem get?_append_of_le {store : Store} {address : Nat} (h : store.nextAddress ≤ address)
    (code : List Instruction) :
    (store.append code).get? address = code[address - store.nextAddress]? := by
  unfold nextAddress at h ⊢
  show (if address < store.first.toNat then none
    else (store.code ++ code.toArray)[address - store.first.toNat]?) = _
  rw [if_neg (by omega), Array.getElem?_append_right (by omega), List.getElem?_toArray,
    Nat.sub_sub]

/-- An appended instruction stands behind as many others as there are before it. -/
theorem get?_append (store : Store) (before after : List Instruction)
    (instruction : Instruction) :
    (store.append (before ++ instruction :: after)).get? (store.nextAddress + before.length)
      = some instruction := by
  rw [get?_append_of_le (Nat.le_add_right _ _), Nat.add_sub_cancel_left]
  simp

/-- The store with the jump at `address` sent to `target`. -/
def fill (store : Store) (address target : Nat) : Store :=
  match store.get? address with
  | some instruction => store.set address (instruction.withTarget target)
  | none => store

/-- The store with the jumps at all of the addresses sent to `target`. -/
def resolve (store : Store) (addresses : List Nat) (target : Nat) : Store :=
  addresses.foldl (fun store address => store.fill address target) store

/-- Each of the addresses holds a pending jump, and none occurs twice. -/
def Waiting (store : Store) (addresses : List Nat) : Prop :=
  addresses.Nodup ∧
    ∀ address ∈ addresses, ∃ instruction,
      store.get? address = some instruction ∧ instruction.isPending = true

/-- Filling in a target does not move the code. -/
@[simp] theorem first_fill (store : Store) (address target : Nat) :
    (store.fill address target).first = store.first := by
  unfold fill
  split <;> rfl

/-- Filling in a target emits nothing. -/
@[simp] theorem nextAddress_fill (store : Store) (address target : Nat) :
    (store.fill address target).nextAddress = store.nextAddress := by
  unfold fill
  split <;> simp

/-- Without an address nothing is filled in. -/
@[simp] theorem resolve_nil (store : Store) (target : Nat) : store.resolve [] target = store := rfl

/-- The targets are filled in from the first address on. -/
@[simp] theorem resolve_cons (store : Store) (address : Nat) (rest : List Nat) (target : Nat) :
    store.resolve (address :: rest) target = (store.fill address target).resolve rest target := rfl

/-- Filling in targets does not move the code. -/
@[simp] theorem first_resolve (store : Store) (addresses : List Nat) (target : Nat) :
    (store.resolve addresses target).first = store.first := by
  induction addresses generalizing store with
  | nil => rfl
  | cons address rest ih => rw [resolve_cons, ih, first_fill]

/-- Filling in targets emits nothing. -/
@[simp] theorem nextAddress_resolve (store : Store) (addresses : List Nat) (target : Nat) :
    (store.resolve addresses target).nextAddress = store.nextAddress := by
  induction addresses generalizing store with
  | nil => rfl
  | cons address rest ih => rw [resolve_cons, ih, nextAddress_fill]

/-- No list is waiting for less than the empty one. -/
@[simp] theorem waiting_nil (store : Store) : store.Waiting [] := by
  simp [Waiting]

/-- A pending jump that was just appended is waiting. -/
theorem waiting_append (store : Store) (before after : List Instruction)
    (instruction : Instruction) (h : instruction.isPending = true) :
    (store.append (before ++ instruction :: after)).Waiting
      [store.nextAddress + before.length] := by
  refine ⟨by simp, ?_⟩
  intro address hmem
  rw [List.mem_singleton] at hmem
  exact ⟨instruction, by rw [hmem, get?_append], h⟩

/-- Filling in the target of an appended jump changes that one instruction. -/
theorem fill_append (store : Store) (before after : List Instruction)
    (instruction : Instruction) (target : Nat) :
    (store.append (before ++ instruction :: after)).fill (store.nextAddress + before.length) target
      = store.append (before ++ instruction.withTarget target :: after) := by
  unfold fill
  rw [get?_append]
  have hindex : store.first.toNat + store.code.size + before.length - store.first.toNat
      = store.code.size + before.length := by
    omega
  simp only [set, append, nextAddress, hindex]
  congr 1
  rw [Array.setIfInBounds_append_right (by omega)]
  simp

/-- Filling in one of the addresses leaves the others waiting. -/
theorem Waiting.fill {store : Store} {address : Nat} {rest : List Nat}
    (h : store.Waiting (address :: rest)) (target : Nat) :
    (store.fill address target).Waiting rest := by
  obtain ⟨hnodup, hpending⟩ := h
  rw [List.nodup_cons] at hnodup
  refine ⟨hnodup.2, ?_⟩
  intro other hother
  obtain ⟨instruction, hget, hisPending⟩ := hpending other (List.mem_cons_of_mem _ hother)
  obtain ⟨first, hfirst, -⟩ := hpending address List.mem_cons_self
  -- The list has no duplicates, so the other jumps stand at other addresses.
  have hne : other ≠ address := fun heq => hnodup.1 (heq ▸ hother)
  refine ⟨instruction, ?_, hisPending⟩
  unfold Store.fill
  rw [hfirst, get?_set store _ (by rw [hfirst]; rfl), if_neg hne]
  exact hget

/-- Filling in a waiting jump changes what stands at its address. -/
theorem get?_fill (store : Store) (address target other : Nat) :
    (store.fill address target).get? other =
      if other = address then (store.get? other).map (Instruction.withTarget target)
      else store.get? other := by
  unfold fill
  split
  · next instruction hget =>
    rw [get?_set store _ (by rw [hget]; rfl)]
    by_cases hother : other = address
    · rw [if_pos hother, if_pos hother, hother, hget, Option.map_some]
    · rw [if_neg hother, if_neg hother]
  · next hget =>
    by_cases hother : other = address
    · rw [if_pos hother, hother, hget, Option.map_none]
    · rw [if_neg hother]

/-- Each of the jumps that waited has its target, and the rest is as before. -/
theorem Waiting.get?_resolve {store : Store} {addresses : List Nat}
    (h : store.Waiting addresses) (target address : Nat) :
    (store.resolve addresses target).get? address =
      if address ∈ addresses then (store.get? address).map (Instruction.withTarget target)
      else store.get? address := by
  induction addresses generalizing store with
  | nil => rfl
  | cons first rest ih =>
      have hfirst : first ∉ rest := (List.nodup_cons.mp h.1).1
      rw [resolve_cons, ih (h.fill target), get?_fill]
      by_cases hsame : address = first
      · -- No address occurs twice, so this one is not filled in again.
        subst hsame
        rw [if_neg hfirst, if_pos rfl, if_pos List.mem_cons_self]
      · rw [if_neg hsame]
        simp only [List.mem_cons, hsame, false_or]

end Store

/-- The store before the first instruction. -/
def Generate.emptyStore (options : Options) : Store := ⟨options.firstAddress, #[]⟩

/-- Backpatching a list of waiting jumps resolves them. -/
theorem JumpList.backpatch_run {store : Store} {list : JumpList}
    (h : store.Waiting list.addresses) (target : Nat) :
    list.backpatch target store = .ok () (store.resolve list.addresses target) := by
  obtain ⟨addresses⟩ := list
  induction addresses generalizing store with
  | nil => rfl
  | cons address rest ih =>
      obtain ⟨instruction, hget, hisPending⟩ := h.2 address List.mem_cons_self
      -- None of the three faults of a patch is possible: the jump is there and has no target.
      have hpatch : Store.patch address target store = .ok () (store.fill address target) := by
        refine Store.patch_eq_ok_iff.mpr ⟨instruction, hget, hisPending, ?_⟩
        unfold Store.fill
        rw [hget]
      have hrest := ih (h.fill target)
      show EStateM.bind (Store.patch address target) _ store = _
      unfold EStateM.bind
      rw [hpatch]
      exact hrest

/-- Resolving waiting jumps where the code ends. -/
theorem Generate.ends_backpatchHere {E : Fault → Prop} {options : Options} {s : State}
    {list : JumpList} (h : s.code.Waiting list.addresses) (Q : Nat → State → Prop) :
    Ends E (backpatchHere list) options s Q ↔
      Q s.code.nextAddress
        { s with code := s.code.resolve list.addresses s.code.nextAddress } := by
  simp only [backpatchHere, ends_bind, ends_nextAddress]
  unfold Ends backpatch onCode
  rw [JumpList.backpatch_run h]
  exact Iff.rfl

/-- Without jumps there is nothing to resolve. -/
@[simp] theorem Generate.ends_backpatchHere_empty {E : Fault → Prop} {options : Options}
    {s : State} (Q : Nat → State → Prop) :
    Ends E (backpatchHere .empty) options s Q ↔ Q s.code.nextAddress s := Iff.rfl

/-! ### Expressions -/

/-- The code of `e` was appended to `store`, where `next` was the first free
temporary. The value is in the operand `value`, and the outcome is `store'` with
the first free temporary `next'`. -/
structure Computes (store : Store) (next : Nat) (e : Expr) (value : String)
    (store' : Store) (next' : Nat) : Prop where
  code : store' = store.append (e.code next)
  temps : next' = next + e.temps
  operand : value = e.operand next

namespace Computes

/-- A name is an operand by itself. -/
theorem name (store : Store) (next : Nat) (name : String) :
    Computes store next (.name name) name store next :=
  ⟨(Store.append_nil store).symm, rfl, rfl⟩

/-- A number is an operand by itself. -/
theorem number (store : Store) (next : Nat) (digits : String) :
    Computes store next (.number digits) (Lexeme.literalText digits) store next :=
  ⟨(Store.append_nil store).symm, rfl, rfl⟩

/-- A missing operand needs no code. -/
theorem missing (store : Store) (next : Nat) :
    Computes store next .missing Generate.missing store next :=
  ⟨(Store.append_nil store).symm, rfl, rfl⟩

/-- One more instruction negates the value. -/
theorem neg {store store' : Store} {next next' : Nat} {e : Expr} {value : String}
    (h : Computes store next e value store' next') :
    Computes store next (.neg e) (Temporaries.name next')
      (store'.push (.assign (Temporaries.name next') (.neg value))) (next' + 1) := by
  obtain ⟨rfl, rfl, rfl⟩ := h
  refine ⟨?_, rfl, rfl⟩
  rw [Store.push_eq_append, Store.append_append]
  rfl

/-- One more instruction combines two values. -/
theorem binary {store store₁ store₂ : Store} {next next₁ next₂ : Nat} {lhs rhs : Expr}
    {left right : String} (op : ArithOp)
    (hl : Computes store next lhs left store₁ next₁)
    (hr : Computes store₁ next₁ rhs right store₂ next₂) :
    Computes store next (.binary op lhs rhs) (Temporaries.name next₂)
      (store₂.push (.assign (Temporaries.name next₂) (.binary op left right))) (next₂ + 1) := by
  obtain ⟨rfl, rfl, rfl⟩ := hl
  obtain ⟨rfl, rfl, rfl⟩ := hr
  refine ⟨?_, ?_, rfl⟩
  · simp only [Store.push_eq_append, Store.append_append, Expr.code]
  · simp only [Expr.temps]
    omega

end Computes

/-! ### Conditions -/

/-- The code of a condition was appended to `store`, its two jumps pending. -/
structure Tests (store : Store) (next : Nat) (c : Condition) (exits : Generate.Exits)
    (store' : Store) (next' : Nat) : Prop where
  code : store' = store.append (c.operandCode next ++ [c.branch next none, .jump none])
  temps : next' = next + c.temps
  onTrue : exits.onTrue = .single (store.nextAddress + c.temps)
  onFalse : exits.onFalse = .single (store.nextAddress + c.temps + 1)

namespace Tests

/-- Two pending jumps behind the code of both sides make a condition. -/
theorem of_computes {store store₁ store₂ : Store} {next next₁ next₂ : Nat} {lhs rhs : Expr}
    {left right : String} (op : RelOp)
    (hl : Computes store next lhs left store₁ next₁)
    (hr : Computes store₁ next₁ rhs right store₂ next₂) :
    Tests store next ⟨lhs, op, rhs⟩
      ⟨.single store₂.nextAddress, .single (store₂.push (.branch left op right none)).nextAddress⟩
      ((store₂.push (.branch left op right none)).push (.jump none)) next₂ := by
  obtain ⟨rfl, rfl, rfl⟩ := hl
  obtain ⟨rfl, rfl, rfl⟩ := hr
  refine ⟨?_, ?_, ?_, ?_⟩
  · simp only [Store.push_eq_append, Store.append_append, Condition.operandCode,
      Condition.branch, List.append_assoc, List.cons_append, List.nil_append]
  · simp only [Condition.temps]
    omega
  · simp [Condition.temps]
  · simp only [Store.nextAddress_push, Store.nextAddress_append, Expr.length_code,
      Condition.temps, Nat.add_assoc]

variable {store store' : Store} {next next' : Nat} {c : Condition} {exits : Generate.Exits}

/-- The branch of a condition can be resolved right after it. -/
theorem waiting_onTrue (h : Tests store next c exits store' next') :
    store'.Waiting exits.onTrue.addresses := by
  rw [h.code, h.onTrue]
  have hwait := Store.waiting_append store (c.operandCode next) [.jump none]
    (c.branch next none) rfl
  rwa [Condition.length_operandCode] at hwait

/-- The store after the branch of a condition is resolved to what follows. -/
def body (store : Store) (next : Nat) (c : Condition) : Store :=
  store.append (c.operandCode next ++
    [c.branch next (some (store.nextAddress + c.temps + 2)), .jump none])

/-- The body starts right behind the two jumps of the condition. -/
@[simp] theorem nextAddress_body (store : Store) (next : Nat) (c : Condition) :
    (body store next c).nextAddress = store.nextAddress + c.temps + 2 := by
  simp [body, Nat.add_assoc]

/-- Resolving the branch of a condition gives the store for its body. -/
theorem resolve_onTrue (h : Tests store next c exits store' next') :
    store'.resolve exits.onTrue.addresses store'.nextAddress = body store next c := by
  have hnext : store'.nextAddress = store.nextAddress + c.temps + 2 := by
    rw [h.code]
    simp [Nat.add_assoc]
  -- The list has one address, and filling it in changes the branch alone.
  rw [hnext, h.code, h.onTrue]
  have hfill := Store.fill_append store (c.operandCode next) [.jump none]
    (c.branch next none) (store.nextAddress + c.temps + 2)
  rw [Condition.length_operandCode] at hfill
  exact hfill

/-- The jump of a condition that does not hold can be resolved behind whatever
code follows. -/
theorem waiting_onFalse (h : Tests store next c exits store' next') (code : List Instruction) :
    ((body store next c).append code).Waiting exits.onFalse.addresses := by
  have hwait := Store.waiting_append store
    (c.operandCode next ++ [c.branch next (some (store.nextAddress + c.temps + 2))]) code
    (.jump none) rfl
  rw [h.onFalse, JumpList.single, body, Store.append_append]
  simpa [Nat.add_assoc] using hwait

/-- Resolving that jump completes the code of the condition. -/
theorem resolve_onFalse (h : Tests store next c exits store' next') (code : List Instruction)
    (exit : Nat) :
    ((body store next c).append code).resolve exits.onFalse.addresses exit
      = store.append (c.code store.nextAddress next exit ++ code) := by
  have hfill := Store.fill_append store
    (c.operandCode next ++ [c.branch next (some (store.nextAddress + c.temps + 2))]) code
    (.jump none) exit
  rw [h.onFalse, JumpList.single, body, Store.append_append, Store.resolve_cons,
    Store.resolve_nil]
  simpa [Nat.add_assoc, Condition.code, Instruction.withTarget] using hfill

end Tests

/-! ### Statements -/

/-- The statement `t` was appended to `store`, where the jumps in `pending` were
to reach it and `next` was the first free temporary. If it has no code the jumps
are handed on, else they go to its first instruction and none is left. -/
structure Performs (store : Store) (next : Nat) (pending : JumpList) (t : Stmt)
    (out : JumpList) (store' : Store) (next' : Nat) : Prop where
  temps : next' = next + t.temps
  quiet : t.size = 0 → store' = store ∧ out = pending
  code : t.size ≠ 0 →
    store' = (store.resolve pending.addresses store.nextAddress).append
      (t.code store.nextAddress next) ∧ out = .empty

namespace Performs

/-- If no jump is to reach a statement, its code is appended and no jump is left. -/
theorem of_empty {store store' : Store} {next next' : Nat} {t : Stmt} {out : JumpList}
    (h : Performs store next .empty t out store' next') :
    store' = store.append (t.code store.nextAddress next) ∧ out = .empty := by
  by_cases hsize : t.size = 0
  · -- Without code nothing was appended, and the empty list was handed on.
    obtain ⟨rfl, rfl⟩ := h.quiet hsize
    have hnil : t.code store'.nextAddress next = [] :=
      List.eq_nil_of_length_eq_zero (by rw [Stmt.length_code, hsize])
    rw [hnil, Store.append_nil]
    exact ⟨rfl, rfl⟩
  · exact h.code hsize

/-- The jumps that are left over are waiting if those that came in were. -/
theorem waiting {store store' : Store} {next next' : Nat} {pending out : JumpList} {t : Stmt}
    (h : Performs store next pending t out store' next')
    (hwait : store.Waiting pending.addresses) : store'.Waiting out.addresses := by
  by_cases hsize : t.size = 0
  · obtain ⟨rfl, rfl⟩ := h.quiet hsize
    exact hwait
  · obtain ⟨-, rfl⟩ := h.code hsize
    exact Store.waiting_nil store'

/-- A statement without code changes nothing. -/
theorem skip (store : Store) (next : Nat) (pending : JumpList) :
    Performs store next pending .skip pending store next :=
  ⟨rfl, fun _ => ⟨rfl, rfl⟩, fun h => absurd rfl h⟩

/-- An assignment is the code of its value and one instruction. -/
theorem assign {store store' : Store} {next next' : Nat} {pending : JumpList} {e : Expr}
    {value : String} (name : String)
    (h : Computes (store.resolve pending.addresses store.nextAddress) next e value store' next') :
    Performs store next pending (.assign name e) .empty
      (store'.push (.assign name (.copy value))) next' := by
  obtain ⟨rfl, rfl, rfl⟩ := h
  refine ⟨rfl, fun hsize => absurd hsize (by simp [Stmt.size]), fun _ => ⟨?_, rfl⟩⟩
  rw [Store.push_eq_append, Store.append_append]
  rfl

/-- One statement after another. -/
theorem seq {store store₁ store₂ : Store} {next next₁ next₂ : Nat}
    {pending between out : JumpList} {first second : Stmt}
    (hf : Performs store next pending first between store₁ next₁)
    (hs : Performs store₁ next₁ between second out store₂ next₂) :
    Performs store next pending (.seq first second) out store₂ next₂ := by
  have htemps : next₂ = next + (first.seq second).temps := by
    rw [hs.temps, hf.temps]
    simp [Stmt.temps, Nat.add_assoc]
  by_cases hsize : first.size = 0
  · -- The first statement hands everything on, so the second one decides.
    obtain ⟨rfl, rfl⟩ := hf.quiet hsize
    have hnil : first.code store₁.nextAddress next = [] :=
      List.eq_nil_of_length_eq_zero (by rw [Stmt.length_code, hsize])
    have hnext : next₁ = next := by
      rw [hf.temps, Stmt.temps_eq_zero_of_size hsize, Nat.add_zero]
    subst hnext
    refine ⟨htemps, fun h => hs.quiet (by simp [Stmt.size] at h; omega), fun h => ?_⟩
    have hcode := hs.code (by simp [Stmt.size] at h; omega)
    rw [Stmt.code, hnil, hsize, Stmt.temps_eq_zero_of_size hsize]
    exact hcode
  · -- The first statement resolved every jump, so none is waiting for the second.
    obtain ⟨rfl, rfl⟩ := hf.code hsize
    obtain ⟨rfl, rfl⟩ := hs.of_empty
    refine ⟨htemps, fun h => absurd h (by simp [Stmt.size]; omega), fun _ => ⟨?_, rfl⟩⟩
    rw [Store.append_append, hf.temps, Store.nextAddress_append, Store.nextAddress_resolve,
      Stmt.length_code]
    rfl

variable {store store₁ store₂ : Store} {next next₁ next₂ : Nat} {pending out : JumpList}
  {c : Condition} {exits : Generate.Exits} {t : Stmt}

/-- After the body of a choice the jump of the condition can be resolved, and
this completes the choice. -/
theorem choice
    (hc : Tests (store.resolve pending.addresses store.nextAddress) next c exits store₁ next₁)
    (hb : Performs (store₁.resolve exits.onTrue.addresses store₁.nextAddress) next₁ .empty t out
      store₂ next₂) :
    store₂.Waiting exits.onFalse.addresses ∧
      Performs store next pending (.choice c t) out
        (store₂.resolve exits.onFalse.addresses store₂.nextAddress) next₂ := by
  -- No jump waits for the body: those of the condition are resolved right before it.
  rw [hc.resolve_onTrue] at hb
  obtain ⟨hstore, rfl⟩ := hb.of_empty
  have hnext : store₂.nextAddress = store.nextAddress + c.temps + 2 + t.size := by
    rw [hstore, Store.nextAddress_append, Tests.nextAddress_body, Store.nextAddress_resolve,
      Stmt.length_code]
  have hwait : store₂.Waiting exits.onFalse.addresses := by
    rw [hstore]
    exact hc.waiting_onFalse _
  refine ⟨hwait, ?_, fun h => absurd h (by simp [Stmt.size]), fun _ => ⟨?_, rfl⟩⟩
  · rw [hb.temps, hc.temps]
    simp [Stmt.temps, Nat.add_assoc]
  · rw [hnext, hstore, hc.resolve_onFalse, hc.temps, Tests.nextAddress_body,
      Store.nextAddress_resolve]
    rfl

/-- After the body of a loop the jump back is emitted. Then the jump of the
condition can be resolved, and this completes the loop. -/
theorem loop
    (hc : Tests (store.resolve pending.addresses store.nextAddress) next c exits store₁ next₁)
    (hb : Performs (store₁.resolve exits.onTrue.addresses store₁.nextAddress) next₁ .empty t out
      store₂ next₂) :
    (store₂.push (.jump (some store.nextAddress))).Waiting exits.onFalse.addresses ∧
      Performs store next pending (.loop c t) .empty
        ((store₂.push (.jump (some store.nextAddress))).resolve exits.onFalse.addresses
          (store₂.push (.jump (some store.nextAddress))).nextAddress) next₂ := by
  rw [hc.resolve_onTrue] at hb
  obtain ⟨hstore, rfl⟩ := hb.of_empty
  -- The closing jump counts as the last instruction of the body.
  have hpush : store₂.push (.jump (some store.nextAddress))
      = (Tests.body (store.resolve pending.addresses store.nextAddress) next c).append
        (t.code
          (Tests.body (store.resolve pending.addresses store.nextAddress) next c).nextAddress next₁
            ++ [.jump (some store.nextAddress)]) := by
    rw [Store.push_eq_append, hstore, Store.append_append]
  have hnext : (store₂.push (.jump (some store.nextAddress))).nextAddress
      = store.nextAddress + c.temps + 2 + t.size + 1 := by
    rw [Store.nextAddress_push, hstore, Store.nextAddress_append, Tests.nextAddress_body,
      Store.nextAddress_resolve, Stmt.length_code]
  rw [hnext, hpush]
  refine ⟨hc.waiting_onFalse _, ?_, fun h => absurd h (by simp [Stmt.size]), fun _ => ⟨?_, rfl⟩⟩
  · rw [hb.temps, hc.temps]
    simp [Stmt.temps, Nat.add_assoc]
  · rw [hc.resolve_onFalse, hc.temps, Tests.nextAddress_body, Store.nextAddress_resolve,
      ← List.append_assoc]
    rfl

end Performs

end ThreeAddress
