import ThreeAddress.Proofs.Lifetimes

/-!
# The control flow is structured

The jumps of a compilation come from choices and loops, and choices and loops lie
side by side or inside each other. This holds for every source, one with errors
included: what the generator emits is the code of a tree.

A `Region` is what a choice or a loop occupies: the condition, the branch and the
jump behind it, the body, and for a loop the jump back. `Stmt.regions` lists the
regions of a tree. Three facts about them are proved by induction on the tree:

* `Stmt.exists_region`: every jump of the code is one of the jumps of a region;
* `Stmt.hasRegion`: every region has its jumps in the code;
* `Stmt.pairwise_regions`: of two regions the first ends before the second starts,
  or the second lies in the body of the first.

`Store.IsStructured` says the same of a store without reference to a tree, by
addresses and targets. What it asks of two jumps is arithmetic on their regions.
-/

set_option autoImplicit false

namespace ThreeAddress

/-! ### Regions -/

/-- The addresses that a choice or a loop occupies. -/
structure Region where
  /-- Where the condition starts. -/
  start : Nat
  /-- Where the branch of the condition stands. The exit follows it. -/
  branch : Nat
  /-- The address behind the body. -/
  bodyEnd : Nat
  /-- Whether a jump back stands behind the body. -/
  loops : Bool
deriving DecidableEq, Repr

namespace Region

/-- The address behind the region. -/
def stop (r : Region) : Nat :=
  if r.loops then r.bodyEnd + 1 else r.bodyEnd

/-- The jumps of a region: the branch goes over the exit, the exit goes behind the
region, and the jump back goes to the condition. -/
inductive Jumps (r : Region) : Nat → Instruction → Prop where
  | branch (lhs : String) (op : RelOp) (rhs : String) :
      Jumps r r.branch (.branch lhs op rhs (some (r.branch + 2)))
  | exit : Jumps r (r.branch + 1) (.jump (some r.stop))
  | back (h : r.loops = true) : Jumps r r.bodyEnd (.jump (some r.start))

/-- The parts of a region follow each other, inside the addresses from `low` to
`high`. -/
structure Within (low high : Nat) (r : Region) : Prop where
  low : low ≤ r.start
  start : r.start ≤ r.branch
  branch : r.branch + 2 ≤ r.bodyEnd
  high : r.stop ≤ high

/-- The first region ends before the second starts, or the second lies in the body of
the first. -/
def Encloses (r s : Region) : Prop :=
  r.stop ≤ s.start ∨ (r.branch + 2 ≤ s.start ∧ s.stop ≤ r.bodyEnd)

/-- A region ends where its body ends, or one address behind it. -/
theorem stop_of_loops {r : Region} (h : r.loops = true) : r.stop = r.bodyEnd + 1 :=
  if_pos h

/-- The body of a region ends inside the region. -/
theorem bodyEnd_le_stop (r : Region) : r.bodyEnd ≤ r.stop := by
  unfold stop
  split <;> omega

/-- A part of the addresses lies in the whole. -/
theorem Within.mono {low high low' high' : Nat} {r : Region} (h : r.Within low high)
    (hlow : low' ≤ low) (hhigh : high ≤ high') : r.Within low' high' :=
  ⟨Nat.le_trans hlow h.low, h.start, h.branch, Nat.le_trans h.high hhigh⟩

end Region

/-- The region of a condition from `base` on with a body of `size` instructions. -/
def Condition.region (base : Nat) (c : Condition) (size : Nat) (loops : Bool) : Region where
  start := base
  branch := base + c.temps
  bodyEnd := base + c.temps + 2 + size
  loops := loops

/-- The regions of a statement from `base` on, those outside before those inside. -/
def Stmt.regions (base : Nat) : Stmt → List Region
  | skip => []
  | assign _ _ => []
  | seq first second => first.regions base ++ second.regions (base + first.size)
  | choice test body =>
    test.region base body.size false :: body.regions (base + test.temps + 2)
  | loop test body =>
    test.region base body.size true :: body.regions (base + test.temps + 2)

/-- The regions of a statement lie in its code. -/
theorem Stmt.within_regions {base : Nat} {t : Stmt} {r : Region} (h : r ∈ t.regions base) :
    r.Within base (base + t.size) := by
  induction t generalizing base with
  | skip => exact absurd h List.not_mem_nil
  | assign name value => exact absurd h List.not_mem_nil
  | seq first second ihf ihs =>
      -- The regions of the second statement lie behind the code of the first.
      rcases List.mem_append.mp h with h | h
      · exact (ihf h).mono (Nat.le_refl _) (by simp only [size]; omega)
      · exact (ihs h).mono (by omega) (by simp only [size]; omega)
  | choice test body ih =>
      rcases List.mem_cons.mp h with rfl | h
      · exact ⟨Nat.le_refl _, Nat.le_add_right _ _, Nat.le_add_right _ _,
          by simp only [Condition.region, Region.stop, size]; simp; omega⟩
      · exact (ih h).mono (by omega) (by simp only [size]; omega)
  | loop test body ih =>
      rcases List.mem_cons.mp h with rfl | h
      · exact ⟨Nat.le_refl _, Nat.le_add_right _ _, Nat.le_add_right _ _,
          by simp only [Condition.region, Region.stop, size]; simp; omega⟩
      · exact (ih h).mono (by omega) (by simp only [size]; omega)

/-- The region of a condition encloses those of its body. -/
theorem Condition.encloses_of_mem {base : Nat} {c : Condition} {body : Stmt} (loops : Bool)
    {r : Region} (h : r ∈ body.regions (base + c.temps + 2)) :
    (c.region base body.size loops).Encloses r :=
  .inr ⟨(Stmt.within_regions h).low, (Stmt.within_regions h).high⟩

/-- **Regions lie side by side or inside each other.** -/
theorem Stmt.pairwise_regions (base : Nat) (t : Stmt) :
    (t.regions base).Pairwise Region.Encloses := by
  induction t generalizing base with
  | skip => exact List.Pairwise.nil
  | assign name value => exact List.Pairwise.nil
  | seq first second ihf ihs =>
      refine List.pairwise_append.mpr ⟨ihf base, ihs _, ?_⟩
      intro r hr s hs
      -- The first statement ends where the second one starts.
      exact .inl (Nat.le_trans (within_regions hr).high (within_regions hs).low)
  | choice test body ih =>
      exact List.Pairwise.cons (fun r hr => Condition.encloses_of_mem false hr) (ih _)
  | loop test body ih =>
      exact List.Pairwise.cons (fun r hr => Condition.encloses_of_mem true hr) (ih _)

/-! ### The jumps of the code -/

/-- A jump of a condition is the branch or the exit of its region. -/
theorem Condition.jumps_of_getElem? {base next size i : Nat} {c : Condition} {loops : Bool}
    {instruction : Instruction} (hjump : instruction.isJump = true)
    (h : (c.code base next (c.region base size loops).stop)[i]? = some instruction) :
    (c.region base size loops).Jumps (base + i) instruction := by
  rw [code, List.getElem?_append] at h
  split at h
  · -- The operands are computed without jumps.
    have hmem := List.mem_of_getElem? h
    rw [operandCode, List.mem_append] at hmem
    rcases hmem with hmem | hmem
    · rw [Expr.isJump_of_mem_code hmem] at hjump
      exact absurd hjump Bool.false_ne_true
    · rw [Expr.isJump_of_mem_code hmem] at hjump
      exact absurd hjump Bool.false_ne_true
  · next hlen =>
    rw [length_operandCode] at h hlen
    obtain ⟨k, hk⟩ : ∃ k, i = c.temps + k := ⟨i - c.temps, by omega⟩
    rw [hk, Nat.add_sub_cancel_left] at h
    rw [hk]
    -- Two instructions stand behind the operands.
    rcases k with _ | _ | k
    · rw [← Option.some.inj h]
      exact .branch _ _ _
    · rw [← Option.some.inj h]
      exact .exit
    · exact absurd h.symm (Option.some_ne_none _)

/-- **Every jump of a statement is a jump of one of its regions.** -/
theorem Stmt.exists_region {base next i : Nat} {t : Stmt} {instruction : Instruction}
    (hjump : instruction.isJump = true) (h : (t.code base next)[i]? = some instruction) :
    ∃ r ∈ t.regions base, r.Jumps (base + i) instruction := by
  induction t generalizing base next i with
  | skip => exact absurd h.symm (Option.some_ne_none _)
  | assign name value =>
      have hmem := List.mem_of_getElem? h
      rw [code, List.mem_append, List.mem_singleton] at hmem
      rcases hmem with hmem | rfl
      · rw [Expr.isJump_of_mem_code hmem] at hjump
        exact absurd hjump Bool.false_ne_true
      · exact absurd hjump Bool.false_ne_true
  | seq first second ihf ihs =>
      rw [code, List.getElem?_append] at h
      split at h
      · obtain ⟨r, hr, hjumps⟩ := ihf h
        exact ⟨r, List.mem_append_left _ hr, hjumps⟩
      · next hlen =>
        rw [length_code] at h hlen
        obtain ⟨r, hr, hjumps⟩ := ihs h
        -- The second statement counts from its own start, which is behind the first.
        rw [show base + first.size + (i - first.size) = base + i by omega] at hjumps
        exact ⟨r, List.mem_append_right _ hr, hjumps⟩
  | choice test body ih =>
      rw [code, List.getElem?_append] at h
      split at h
      · exact ⟨_, List.mem_cons_self .., Condition.jumps_of_getElem? hjump h⟩
      · next hlen =>
        rw [Condition.length_code] at h hlen
        obtain ⟨r, hr, hjumps⟩ := ih h
        rw [show base + test.temps + 2 + (i - (test.temps + 2)) = base + i by omega] at hjumps
        exact ⟨r, List.mem_cons_of_mem _ hr, hjumps⟩
  | loop test body ih =>
      rw [code, List.append_assoc, List.getElem?_append] at h
      split at h
      · exact ⟨_, List.mem_cons_self .., Condition.jumps_of_getElem? hjump h⟩
      · next hlen =>
        rw [Condition.length_code, List.getElem?_append] at h
        rw [Condition.length_code] at hlen
        split at h
        · obtain ⟨r, hr, hjumps⟩ := ih h
          rw [show base + test.temps + 2 + (i - (test.temps + 2)) = base + i by omega] at hjumps
          exact ⟨r, List.mem_cons_of_mem _ hr, hjumps⟩
        · -- Behind the body only the jump back is left.
          next hbody =>
          rw [length_code, List.getElem?_singleton] at h
          rw [length_code] at hbody
          split at h
          · next hlast =>
            have hback : (test.region base body.size true).Jumps _ _ := .back rfl
            rw [← Option.some.inj h,
              show base + i = (test.region base body.size true).bodyEnd by
                show base + i = base + test.temps + 2 + body.size
                omega]
            exact ⟨_, List.mem_cons_self .., hback⟩
          · exact absurd h.symm (Option.some_ne_none _)

/-- The branch and the exit of a condition stand in its code. -/
theorem Condition.region_jumps {store : Store} {base next : Nat} {c : Condition}
    (size : Nat) (loops : Bool)
    (h : store.HasCode base (c.code base next (c.region base size loops).stop)) :
    store.get? (base + c.temps) = some (c.branch next (some (base + c.temps + 2))) ∧
      store.get? (base + c.temps + 1) = some (.jump (some (c.region base size loops).stop)) := by
  have hjumps := h.right
  rw [length_operandCode] at hjumps
  exact ⟨hjumps.head, hjumps.tail.head⟩

/-- The jumps of a region stand in a store. -/
structure Store.HasRegion (store : Store) (r : Region) : Prop where
  branch : ∃ lhs op rhs, store.get? r.branch = some (.branch lhs op rhs (some (r.branch + 2)))
  exit : store.get? (r.branch + 1) = some (.jump (some r.stop))
  back : r.loops = true → store.get? r.bodyEnd = some (.jump (some r.start))

/-- **Every region of a statement has its jumps in the code.** -/
theorem Stmt.hasRegion {store : Store} {base next : Nat} {t : Stmt} {r : Region}
    (hcode : store.HasCode base (t.code base next)) (h : r ∈ t.regions base) :
    store.HasRegion r := by
  induction t generalizing base next with
  | skip => exact absurd h List.not_mem_nil
  | assign name value => exact absurd h List.not_mem_nil
  | seq first second ihf ihs =>
      rcases List.mem_append.mp h with h | h
      · exact ihf hcode.left h
      · have hsecond := hcode.right
        rw [length_code] at hsecond
        exact ihs hsecond h
  | choice test body ih =>
      rcases List.mem_cons.mp h with rfl | h
      · have hjumps := Condition.region_jumps body.size false hcode.left
        exact ⟨⟨_, _, _, hjumps.1⟩, hjumps.2, fun hloops => nomatch hloops⟩
      · have hbody := hcode.right
        rw [Condition.length_code] at hbody
        exact ih hbody h
  | loop test body ih =>
      rcases List.mem_cons.mp h with rfl | h
      · have hjumps := Condition.region_jumps body.size true hcode.left.left
        -- The jump back is the one instruction behind the body.
        have hback := hcode.right.head
        rw [List.length_append, Condition.length_code, length_code] at hback
        rw [show base + (test.temps + 2 + body.size) = base + test.temps + 2 + body.size by omega]
          at hback
        exact ⟨⟨_, _, _, hjumps.1⟩, hjumps.2, fun _ => hback⟩
      · have hbody := hcode.left.right
        rw [Condition.length_code] at hbody
        exact ih hbody h

/-! ### Structured stores -/

namespace Store

/-- A branch stands at the address. -/
def IsBranch (store : Store) (address : Nat) : Prop :=
  ∃ lhs op rhs target, store.get? address = some (.branch lhs op rhs target)

/-- The address holds an exit: the jump right behind a branch. -/
def IsExit (store : Store) (address : Nat) : Prop :=
  (∃ target, store.get? address = some (.jump target)) ∧
    ∃ branch, address = branch + 1 ∧ store.IsBranch branch

/-- A branch or a jump goes from one address to another. -/
def Goes (store : Store) (address target : Nat) : Prop :=
  ∃ instruction, store.get? address = some instruction ∧ instruction.target? = some target

/-- The jump at `back` closes a loop that starts at `start`. One exit in the loop goes
behind it. All other jumps in the loop stay there, and a jump from elsewhere enters the
loop at its start only. -/
structure ClosesLoop (store : Store) (start back : Nat) : Prop where
  backward : start < back
  inside : ∃ exit, (start ≤ exit ∧ exit < back ∧ store.IsExit exit ∧ store.Goes exit (back + 1)) ∧
    (∀ other, start ≤ other → other < back → store.IsExit other → store.Goes other (back + 1) →
      other = exit) ∧
    ∀ address target, start ≤ address → address < back → address ≠ exit →
      store.Goes address target → start ≤ target ∧ target ≤ back
  outside : ∀ address target, address < start ∨ back < address → store.Goes address target →
    ¬ (start < target ∧ target ≤ back)

/-- Branches and jumps are those of choices and loops that lie side by side or inside
each other. -/
structure IsStructured (store : Store) : Prop where
  /-- A branch goes over its exit, which goes forward. -/
  branches : ∀ address, store.IsBranch address →
    store.Goes address (address + 2) ∧
      ∃ stop, store.get? (address + 1) = some (.jump (some stop)) ∧ address + 2 ≤ stop
  /-- The second of two constructs starts behind the first or ends inside it. -/
  nested : ∀ first second stop stop', first < second → store.IsBranch first →
    store.IsBranch second → store.Goes (first + 1) stop → store.Goes (second + 1) stop' →
    stop ≤ second ∨ stop' ≤ stop
  /-- A jump that is no exit closes a loop. -/
  loops : ∀ address target, store.get? address = some (.jump target) → ¬ store.IsExit address →
    ∃ start, target = some start ∧ store.ClosesLoop start address

/-- The jumps of a store are those of some regions. -/
structure HasRegions (store : Store) (regions : List Region) : Prop where
  shape : ∀ r ∈ regions, r.start ≤ r.branch ∧ r.branch + 2 ≤ r.bodyEnd
  pairwise : regions.Pairwise Region.Encloses
  jumps : ∀ r ∈ regions, store.HasRegion r
  exists_region : ∀ address instruction, store.get? address = some instruction →
    instruction.isJump = true → ∃ r ∈ regions, r.Jumps address instruction

namespace HasRegions

variable {store : Store} {regions : List Region} {r s : Region}

/-- Two regions are the same, or one encloses the other. -/
theorem compare (h : store.HasRegions regions) (hr : r ∈ regions) (hs : s ∈ regions) :
    r = s ∨ r.Encloses s ∨ s.Encloses r := by
  have hforward : regions.Pairwise fun r s => r = s ∨ r.Encloses s ∨ s.Encloses r :=
    h.pairwise.imp fun hencloses => .inr (.inl hencloses)
  have hbackward : regions.Pairwise (flip fun r s => r = s ∨ r.Encloses s ∨ s.Encloses r) :=
    h.pairwise.imp fun hencloses => .inr (.inr hencloses)
  exact hforward.forall_of_forall_of_flip (fun _ _ => .inl rfl) hbackward hr hs

/-- A branch is the branch of a region. -/
theorem exists_of_isBranch (h : store.HasRegions regions) {address : Nat}
    (hbranch : store.IsBranch address) : ∃ r ∈ regions, address = r.branch := by
  obtain ⟨lhs, op, rhs, target, hget⟩ := hbranch
  obtain ⟨r, hr, hjumps⟩ := h.exists_region address _ hget rfl
  cases hjumps with
  | branch => exact ⟨r, hr, rfl⟩

/-- What goes somewhere is a jump of a region. -/
theorem exists_of_goes (h : store.HasRegions regions) {address target : Nat}
    (hgoes : store.Goes address target) :
    ∃ r ∈ regions, (address = r.branch ∧ target = r.branch + 2) ∨
      (address = r.branch + 1 ∧ target = r.stop) ∨
      (address = r.bodyEnd ∧ target = r.start ∧ r.stop = r.bodyEnd + 1) := by
  obtain ⟨instruction, hget, htarget⟩ := hgoes
  obtain ⟨r, hr, hjumps⟩ := h.exists_region address _ hget (Instruction.isJump_of_target? htarget)
  refine ⟨r, hr, ?_⟩
  cases hjumps with
  | branch => exact .inl ⟨rfl, (Option.some.inj htarget).symm⟩
  | exit => exact .inr (.inl ⟨rfl, (Option.some.inj htarget).symm⟩)
  | back hloops =>
      exact .inr (.inr ⟨rfl, (Option.some.inj htarget).symm, Region.stop_of_loops hloops⟩)

/-- The exit of a region goes behind it. -/
theorem stop_of_goes (h : store.HasRegions regions) (hr : r ∈ regions) {stop : Nat}
    (hgoes : store.Goes (r.branch + 1) stop) : stop = r.stop := by
  obtain ⟨instruction, hget, htarget⟩ := hgoes
  rw [(h.jumps r hr).exit] at hget
  rw [← Option.some.inj hget] at htarget
  exact (Option.some.inj htarget).symm

/-- The jump back of a region closes a loop. Another region lies before it, behind it,
around it or in its body, and its jumps do too. -/
theorem closesLoop (h : store.HasRegions regions) (hr : r ∈ regions) (hloops : r.loops = true) :
    store.ClosesLoop r.start r.bodyEnd := by
  have hjumps := h.jumps r hr
  have hshape := h.shape r hr
  have hstop := Region.stop_of_loops hloops
  have hexit : store.IsExit (r.branch + 1) := by
    obtain ⟨lhs, op, rhs, hbranch⟩ := hjumps.branch
    exact ⟨⟨_, hjumps.exit⟩, r.branch, rfl, lhs, op, rhs, _, hbranch⟩
  refine ⟨by omega, ⟨r.branch + 1, ⟨by omega, by omega, hexit, ?_⟩, ?_, ?_⟩, ?_⟩
  · exact ⟨_, hjumps.exit, by rw [← hstop]; rfl⟩
  · intro other hlow hhigh _ hgoes
    obtain ⟨s, hs, hplace⟩ := h.exists_of_goes hgoes
    have hshape' := h.shape s hs
    have hle := s.bodyEnd_le_stop
    rcases h.compare hr hs with rfl | (hrs | hrs) | (hsr | hsr) <;> omega
  · intro address target hlow hhigh hne hgoes
    obtain ⟨s, hs, hplace⟩ := h.exists_of_goes hgoes
    have hshape' := h.shape s hs
    have hle := s.bodyEnd_le_stop
    rcases h.compare hr hs with rfl | (hrs | hrs) | (hsr | hsr) <;> omega
  · intro address target hout hgoes hinside
    obtain ⟨s, hs, hplace⟩ := h.exists_of_goes hgoes
    have hshape' := h.shape s hs
    have hle := s.bodyEnd_le_stop
    rcases h.compare hr hs with rfl | (hrs | hrs) | (hsr | hsr) <;> omega

/-- **Jumps that come from regions are structured.** -/
theorem isStructured (h : store.HasRegions regions) : store.IsStructured := by
  refine ⟨?_, ?_, ?_⟩
  · intro address hbranch
    obtain ⟨r, hr, rfl⟩ := h.exists_of_isBranch hbranch
    obtain ⟨lhs, op, rhs, hget⟩ := (h.jumps r hr).branch
    have hshape := h.shape r hr
    have hle := r.bodyEnd_le_stop
    exact ⟨⟨_, hget, rfl⟩, r.stop, (h.jumps r hr).exit, by omega⟩
  · intro first second stop stop' hlt hfirst hsecond hstop hstop'
    obtain ⟨r, hr, rfl⟩ := h.exists_of_isBranch hfirst
    obtain ⟨s, hs, rfl⟩ := h.exists_of_isBranch hsecond
    rw [h.stop_of_goes hr hstop, h.stop_of_goes hs hstop']
    have hshape := h.shape r hr
    have hshape' := h.shape s hs
    have hle := r.bodyEnd_le_stop
    have hle' := s.bodyEnd_le_stop
    -- The second branch stands behind the first, so its region does not lie around it.
    rcases h.compare hr hs with rfl | (hrs | hrs) | (hsr | hsr) <;> omega
  · intro address target hget hexit
    obtain ⟨r, hr, hjumps⟩ := h.exists_region address _ hget rfl
    cases hjumps with
    | exit =>
        obtain ⟨lhs, op, rhs, hbranch⟩ := (h.jumps r hr).branch
        exact absurd ⟨⟨_, hget⟩, r.branch, rfl, lhs, op, rhs, _, hbranch⟩ hexit
    | back hloops => exact ⟨r.start, rfl, h.closesLoop hr hloops⟩

end HasRegions

end Store

/-- The code of a tree has the regions of the tree. -/
theorem Stmt.hasRegions {store : Store} {next : Nat} {t : Stmt}
    (h : store.code.toList = t.code store.first.toNat next) :
    store.HasRegions (t.regions store.first.toNat) := by
  have hcode := store.hasCode_first
  rw [h] at hcode
  refine ⟨fun r hr => ⟨(within_regions hr).start, (within_regions hr).branch⟩,
    t.pairwise_regions _, fun r hr => hasRegion hcode hr, ?_⟩
  intro address instruction hget hjump
  have hrange := (store.isSome_get?_iff address).mp (by rw [hget]; rfl)
  unfold Store.get? at hget
  rw [if_neg (Nat.not_lt.mpr hrange.1), ← Array.getElem?_toList, h] at hget
  obtain ⟨r, hr, hjumps⟩ := exists_region hjump hget
  rw [Nat.add_sub_cancel' hrange.1] at hjumps
  exact ⟨r, hr, hjumps⟩

/-- **The control flow of every compilation is structured.** Each branch is followed by
its exit, the constructs lie side by side or inside each other, and every other jump
closes a loop, which is entered at its start and left by one exit. The source may have
errors. -/
theorem compile_isStructured (options : Options) (source : String) (compilation : Compilation)
    (hok : compile options source = .ok compilation) : compilation.code.IsStructured := by
  obtain ⟨t, -, hcode⟩ := exists_tree_of_compile hok
  have hlist : compilation.code.code.toList
      = t.code compilation.code.first.toNat options.firstTemp.toNat := by
    rw [hcode, Generate.toList_code_append]
    rfl
  exact (Stmt.hasRegions hlist).isStructured

/-- A loop whose condition breaks off, with a choice that has no body. The jump at 9 closes
the loop, although the instruction in front of it is an exit. -/
theorem compile_isStructured_choice_in_loop :
    ∃ compilation,
      compile { firstAddress := 5 } "WHILE x DO IF y < 1" = .ok compilation ∧
      compilation.code.IsStructured ∧ compilation.code.ClosesLoop 5 9 := by
  have hcompile : compile { firstAddress := 5 } "WHILE x DO IF y < 1" = .ok
      { program := none
        symbols := ⟨#[]⟩
        code := ⟨5, #[.branch "x" .eq "?" (some 7), .jump (some 10),
          .branch "y" .lt "1" (some 9), .jump (some 9), .jump (some 5)]⟩
        diagnostics := #[⟨1, .expected "'PROGRAM'" "'WHILE'"⟩,
          ⟨1, .expected "program name" "'WHILE'"⟩, ⟨1, .undeclared "x"⟩,
          ⟨1, .expected "relational operator" "'DO'"⟩,
          ⟨1, .expected "identifier, number or '('" "'DO'"⟩, ⟨1, .undeclared "y"⟩,
          ⟨1, .expected "'THEN'" "end of input"⟩] } := by
    decide +kernel
  have hflow := compile_isStructured _ _ _ hcompile
  refine ⟨_, hcompile, hflow, ?_⟩
  -- The jump at 9 is no exit, because at 8 there is no branch.
  obtain ⟨start, hstart, hloop⟩ := hflow.loops 9 (some 5) rfl (by
    rintro ⟨-, branch, hbranch, lhs, op, rhs, target, hget⟩
    obtain rfl : branch = 8 := by omega
    exact nomatch hget)
  obtain rfl := Option.some.inj hstart
  exact hloop

end ThreeAddress
