import Owl.Proofs.Compiler.Captures

/-! # Closure conversion finds the binder

A reference that a search returns is followed through captured lists: a register stays in its function, an
upvalue goes on with an entry of the function's list in the parent. Lists only grow, at their end, so an
index that was handed out keeps its entry while siblings and later searches add theirs.
-/

namespace Owl.Compiler

/-- `MAX_UPVALUES` of the machine. -/
def MAX_UPVALUES : ℕ := 128

/-- Follow a reference through the captured lists of a function and its parents: by how many functions it
goes up, and the register that it ends at. -/
def follow : List (List VarRef) → VarRef → Option (ℕ × UInt8)
  | _, .register r => some (0, r)
  | [], .upvalue _ => none
  | upvals :: outer, .upvalue idx =>
      (upvals[idx.toNat]?.bind (follow outer)).map fun found => (found.1 + 1, found.2)

/-- A search for a name, from the generators of that moment, and the captured lists with which functions
have finished since, innermost first. -/
structure Search where
  scope : Scope
  name : Name
  finished : List (List VarRef)

/-- The innermost function that has not finished yet finishes. -/
def Search.finish (upvals : List VarRef) (search : Search) : Search :=
  { search with finished := search.finished ++ [upvals] }

def captureLists (chain : List FnGenerator) : List (List VarRef) := chain.map (·.upvals)

/-- The captured lists of the functions of a search, as they are in a later scope. -/
def Search.lists (search : Search) (g : Scope) : List (List VarRef) := search.finished ++ captureLists g.generators

/-- What the search found leads to the register of the innermost function that bound the name then. -/
def Search.Resolves (search : Search) (g : Scope) : Prop :=
  ∀ ref, (search.scope.searchEnv search.name).1 = some ref → ∃ depth r,
    Binds search.scope.generators depth search.name (.register r) ∧
      follow (search.lists g) ref = some (depth, r)

/-- What a generator does in one function, in any order: it searches for names, moves its counter, binds
names to registers and generates closures. -/
inductive Runs : Scope → List Search → Scope → Prop
  | refl (g : Scope) : Runs g [] g
  | search {g g' : Scope} {searches : List Search} (x : Name) (rest : Runs (g.searchEnv x).2 searches g') :
      Runs g (⟨g, x, []⟩ :: searches) g'
  | counter {g g' : Scope} {searches : List Search} (varCount : UInt8)
      (rest : Runs { g with self := { g.self with varCount } } searches g') : Runs g searches g'
  | bind {g g' : Scope} {searches : List Search} (x : Name) (r : UInt8)
      (rest : Runs (g.insertEnv x (.register r)) searches g') : Runs g searches g'
  | closure {g child child' g' : Scope} {params : List Name} {inner searches : List Search}
      (entered : g.child params = .ok child) (inside : Runs child inner child')
      (rest : Runs (child'.leave g) searches g') :
      Runs g (inner.map (.finish child'.self.upvals) ++ searches) g'

/-- The moments of the generation of a function, in it or in a closure of any depth. -/
inductive Reachable : Scope → Prop
  | start {self : FnGenerator} {moduleName functionName : Name} {params : List Name}
      (created : FnGenerator.new moduleName functionName params = .ok self) : Reachable ⟨self, []⟩
  | child {g child : Scope} {params : List Name} (reached : Reachable g) (entered : g.child params = .ok child) :
      Reachable child
  | runs {g g' : Scope} {searches : List Search} (reached : Reachable g) (run : Runs g searches g') :
      Reachable g'

/-- References of an instruction that the generator has searched for. -/
def Instruction.lookedUp : Instruction → List VarRef
  | mov _ src => [src]
  | callLocal _ funcLoc _ => [funcLoc]
  | _ => []

/-- What code moves or calls was found by one of these searches. -/
def Covers (searches : List Search) (code : Bytecode) : Prop :=
  ∀ instr ∈ code, ∀ ref ∈ instr.lookedUp, ∃ search ∈ searches,
    (search.scope.searchEnv search.name).1 = some ref

/-- The environments of a chain name registers. -/
def OnlyRegisters (chain : List FnGenerator) : Prop :=
  ∀ self ∈ chain, ∀ x ref, self.env.lookup x = some ref → ∃ r, ref = .register r

abbrev ListsExtend := List.Forall₂ (fun before after : List VarRef => before <+: after)

theorem ListsExtend.refl (lists : List (List VarRef)) : ListsExtend lists lists :=
  List.forall₂_same.mpr fun _ _ => List.prefix_refl _

theorem ListsExtend.lengths {lists lists' : List (List VarRef)} (extension : ListsExtend lists lists') {n : ℕ}
    (room : ∀ upvals ∈ lists', upvals.length ≤ n) : ∀ upvals ∈ lists, upvals.length ≤ n := by
  induction extension with
  | nil => exact room
  | cons head _ ih =>
    obtain ⟨first, rest⟩ := List.forall_mem_cons.mp room
    exact List.forall_mem_cons.mpr ⟨head.length_le.trans first, ih rest⟩

theorem ChainExtends.lists {before after : List FnGenerator} (extension : ChainExtends before after) :
    ListsExtend (captureLists before) (captureLists after) := by
  induction extension with
  | nil => exact .nil
  | cons head _ ih => exact .cons head.upvals ih

/-- Longer lists do not change where a reference leads. -/
private theorem follow_mono {lists lists' : List (List VarRef)} (extension : ListsExtend lists lists')
    {ref : VarRef} {place : ℕ × UInt8} (found : follow lists ref = some place) :
    follow lists' ref = some place := by
  induction extension generalizing ref place with
  | nil =>
    cases ref with
    | register r =>
      rw [follow] at found ⊢
      exact found
    | upvalue idx => cases found
  | cons head _ ih =>
    cases ref with
    | register r =>
      rw [follow] at found ⊢
      exact found
    | upvalue idx =>
      simp only [follow, Option.map_eq_some_iff, Option.bind_eq_some_iff] at found
      obtain ⟨deeper, ⟨next, entry, tail⟩, same⟩ := found
      have kept := List.prefix_iff_getElem?.mp head
      obtain ⟨bound, here⟩ := List.getElem?_eq_some_iff.mp entry
      rw [follow, kept idx.toNat bound, here, Option.bind_some, ih tail, Option.map_some, same]

private theorem FnGenerator.pushUpval_entry (self : FnGenerator) (v : VarRef)
    (room : (self.pushUpval v).2.upvals.length ≤ MAX_UPVALUES) :
    ∃ idx : UInt8, (self.pushUpval v).1 = .upvalue idx ∧ (self.pushUpval v).2.upvals[idx.toNat]? = some v := by
  rw [MAX_UPVALUES] at room
  unfold FnGenerator.pushUpval at room ⊢
  split
  · next index found =>
    simp only [found] at room
    obtain ⟨inside, same, -⟩ := List.findIdx?_eq_some_iff_getElem.mp found
    refine ⟨_, rfl, ?_⟩
    rw [UInt8.toNat_ofNat_of_lt' (by simp only [UInt8.size]; omega)]
    exact (List.getElem?_eq_getElem inside).trans (congrArg some (of_decide_eq_true same))
  · next missing =>
    simp only [missing, List.length_append, List.length_singleton] at room
    refine ⟨_, rfl, ?_⟩
    rw [UInt8.toNat_ofNat_of_lt' (by simp only [UInt8.size]; omega)]
    exact List.getElem?_concat_length

/-- A search leads to the innermost function that binds the name. -/
private theorem searchChain_resolves {x : Name} {ref : VarRef} : ∀ {chain : List FnGenerator},
    OnlyRegisters chain → (∀ upvals ∈ captureLists (searchChain x chain).2, upvals.length ≤ MAX_UPVALUES) →
    (searchChain x chain).1 = some ref → ∃ depth r, Binds chain depth x (.register r) ∧
      follow (captureLists (searchChain x chain).2) ref = some (depth, r)
  | [], _, _, found => by cases found
  | self :: parents, registers, room, found => by
    obtain ⟨own, outer⟩ := List.forall_mem_cons.mp registers
    rw [searchChain] at room found ⊢
    split at found
    · next varRef bound =>
      obtain rfl := Option.some.inj found
      obtain ⟨r, rfl⟩ := own x _ bound
      exact ⟨0, r, bound, rfl⟩
    · next unbound =>
      split at found
      · next upval parents' searched =>
        simp only [unbound, searched] at room ⊢
        obtain ⟨here, above⟩ := List.forall_mem_cons.mp room
        have same : parents' = (searchChain x parents).2 := (congrArg Prod.snd searched).symm
        rw [same] at above
        obtain ⟨depth, r, binds, followed⟩ :=
          searchChain_resolves outer above (congrArg Prod.fst searched)
        obtain ⟨idx, handed, entry⟩ := self.pushUpval_entry upval here
        obtain rfl : ref = .upvalue idx := (Option.some.inj found).symm.trans handed
        refine ⟨depth + 1, r, ⟨unbound, binds⟩, ?_⟩
        rw [captureLists, List.map_cons, follow, entry, Option.bind_some, same]
        change (follow (captureLists _) upval).map _ = _
        rw [followed]
        rfl
      · cases found

private theorem Scope.searchEnv_resolves {g : Scope} {x : Name} {ref : VarRef} (registers : OnlyRegisters g.generators)
    (room : ∀ upvals ∈ captureLists (g.searchEnv x).2.generators, upvals.length ≤ MAX_UPVALUES)
    (found : (g.searchEnv x).1 = some ref) : ∃ depth r, Binds g.generators depth x (.register r) ∧
      follow (captureLists (g.searchEnv x).2.generators) ref = some (depth, r) := by
  obtain ⟨result, after⟩ := g.searchEnv_eq x
  rw [after] at room ⊢
  exact searchChain_resolves registers room (result.symm.trans found)

theorem OnlyRegisters.extended {before after : List FnGenerator} (registers : OnlyRegisters before)
    (extension : ChainExtends before after) : OnlyRegisters after := by
  induction extension with
  | nil => exact registers
  | cons head _ ih =>
    obtain ⟨own, outer⟩ := List.forall_mem_cons.mp registers
    exact List.forall_mem_cons.mpr ⟨by rwa [head.env], ih outer⟩

theorem OnlyRegisters.child {g child : Scope} {params : List Name} (registers : OnlyRegisters g.generators)
    (entered : g.child params = .ok child) : OnlyRegisters child.generators := by
  obtain ⟨outer, created⟩ := Scope.child_parents entered
  rw [Scope.generators, outer]
  refine List.forall_mem_cons.mpr ⟨fun x ref found => ?_, registers⟩
  rw [(FnGenerator.lookup_new created).2.2] at found
  obtain ⟨k, -, rfl⟩ := Option.map_eq_some_iff.mp found
  exact ⟨_, rfl⟩

theorem OnlyRegisters.insert {g : Scope} (registers : OnlyRegisters g.generators) (x : Name) (r : UInt8) :
    OnlyRegisters (g.insertEnv x (.register r)).generators := by
  obtain ⟨own, outer⟩ := List.forall_mem_cons.mp registers
  refine List.forall_mem_cons.mpr ⟨fun y ref found => ?_, outer⟩
  rw [g.lookup_insertEnv] at found
  split at found
  · exact ⟨r, (Option.some.inj found).symm⟩
  · exact own y ref found

namespace Runs

variable {g g' : Scope} {searches : List Search}

/-- A run leaves the parents as they are, but for longer captured lists. -/
theorem parents (run : Runs g searches g') :
    g.self.upvals <+: g'.self.upvals ∧ ChainExtends g.parents g'.parents := by
  induction run with
  | refl g => exact ⟨List.prefix_refl _, .refl _⟩
  | @search g g' searches x rest ih =>
    have searched := g.searchEnv_extends x
    exact ⟨searched.self.upvals.trans ih.1, searched.parents.trans ih.2⟩
  | counter varCount rest ih => exact ih
  | bind x r rest ih => exact ih
  | @closure g child child' g' params inner searches entered inside rest inner_ih ih =>
    have outer := inner_ih.2
    rw [(Scope.child_parents entered).1] at outer
    have left := Scope.leave_extends outer
    exact ⟨left.self.upvals.trans ih.1, left.parents.trans ih.2⟩

theorem lists (run : Runs g searches g') : ListsExtend (captureLists g.generators) (captureLists g'.generators) :=
  .cons run.parents.1 run.parents.2.lists

/-- At every later moment, what a search of a run has found leads to the function that bound the name. -/
theorem resolves (run : Runs g searches g') (registers : OnlyRegisters g.generators) :
    ∀ search ∈ searches, (∀ upvals ∈ search.lists g', upvals.length ≤ MAX_UPVALUES) → search.Resolves g' := by
  induction run with
  | refl g => exact fun _ member => absurd member List.not_mem_nil
  | @search g g' searches x rest ih =>
    have after := registers.extended (.cons (g.searchEnv_extends x).self (g.searchEnv_extends x).parents)
    refine List.forall_mem_cons.mpr ⟨fun room ref found => ?_, ih after⟩
    obtain ⟨depth, r, binds, followed⟩ :=
      Scope.searchEnv_resolves registers (rest.lists.lengths room) found
    exact ⟨depth, r, binds, follow_mono rest.lists followed⟩
  | counter varCount rest ih => exact ih (List.forall_mem_cons.mpr (List.forall_mem_cons.mp registers))
  | bind x r rest ih => exact ih (registers.insert x r)
  | @closure g child child' g' params inner searches entered inside rest inner_ih ih =>
    have extension := inside.parents.2
    rw [(Scope.child_parents entered).1] at extension
    have outer : (child'.leave g).generators = child'.parents := Scope.leave_generators extension
    have later : ListsExtend (captureLists child'.parents) (captureLists g'.generators) := outer ▸ rest.lists
    refine List.forall_mem_append.mpr ⟨?_, ih (outer ▸ registers.extended extension)⟩
    intro search member
    obtain ⟨before, earlier, rfl⟩ := List.mem_map.mp member
    have longer : ListsExtend (before.lists child') ((before.finish child'.self.upvals).lists g') := by
      rw [Search.lists, Search.lists, Search.finish, List.append_assoc]
      exact List.rel_append (ListsExtend.refl before.finished) (.cons (List.prefix_refl _) later)
    intro room ref found
    obtain ⟨depth, r, binds, followed⟩ :=
      inner_ih (registers.child entered) before earlier (longer.lengths room) ref found
    exact ⟨depth, r, binds, follow_mono longer followed⟩

end Runs

theorem Runs.registers {g g' : Scope} {searches : List Search} (run : Runs g searches g')
    (registers : OnlyRegisters g.generators) : OnlyRegisters g'.generators := by
  induction run with
  | refl g => exact registers
  | @search g g' searches x rest ih =>
    exact ih (registers.extended (.cons (g.searchEnv_extends x).self (g.searchEnv_extends x).parents))
  | counter varCount rest ih => exact ih (List.forall_mem_cons.mpr (List.forall_mem_cons.mp registers))
  | bind x r rest ih => exact ih (registers.insert x r)
  | closure entered inside rest inner_ih ih =>
    have extension := inside.parents.2
    rw [(Scope.child_parents entered).1] at extension
    exact ih (Scope.leave_generators extension ▸ registers.extended extension)

theorem Reachable.registers {g : Scope} (reached : Reachable g) : OnlyRegisters g.generators := by
  induction reached with
  | start created =>
    refine List.forall_mem_singleton.mpr fun x ref found => ?_
    rw [(FnGenerator.lookup_new created).2.2] at found
    obtain ⟨k, -, rfl⟩ := Option.map_eq_some_iff.mp found
    exact ⟨_, rfl⟩
  | child reached entered ih => exact ih.child entered
  | runs reached run ih => exact run.registers ih

theorem Runs.trans {g g₁ g₂ : Scope} {first second : List Search} (left : Runs g first g₁)
    (right : Runs g₁ second g₂) : Runs g (first ++ second) g₂ := by
  induction left with
  | refl g => exact right
  | search x rest ih => exact .search x (ih right)
  | counter varCount rest ih => exact .counter varCount (ih right)
  | bind x r rest ih => exact .bind x r (ih right)
  | closure entered inside rest inner_ih ih =>
    rw [List.append_assoc]
    exact .closure entered inside (ih right)

namespace Covers

variable {first second : List Search} {code code' : Bytecode}

theorem mono (covers : Covers first code) (subset : first ⊆ second) : Covers second code := by
  intro instr member ref used
  obtain ⟨search, listed, found⟩ := covers instr member ref used
  exact ⟨search, subset listed, found⟩

theorem append (left : Covers first code) (right : Covers second code') :
    Covers (first ++ second) (code ++ code') :=
  List.forall_mem_append.mpr
    ⟨left.mono (List.subset_append_left _ _), right.mono (List.subset_append_right _ _)⟩

theorem of_none {instr : Instruction} (none : instr.lookedUp = []) (searches : List Search) :
    Covers searches [instr] :=
  List.forall_mem_singleton.mpr fun _ used => absurd (none ▸ used) List.not_mem_nil

theorem finish (covers : Covers first code) (upvals : List VarRef) :
    Covers (first.map (.finish upvals)) code := by
  intro instr member ref used
  obtain ⟨search, listed, found⟩ := covers instr member ref used
  exact ⟨search.finish upvals, List.mem_map_of_mem listed, found⟩

/-- The jumps of a conditional look nothing up. -/
theorem joined {thenBranch elseBranch result : Bytecode} {reg : VarRef}
    (joined : genBranchInto code reg thenBranch elseBranch = .ok result) (condition : Covers first code)
    (branches : Covers first (thenBranch ++ elseBranch)) : Covers first result := by
  obtain ⟨thenCovers, elseCovers⟩ := List.forall_mem_append.mp branches
  have jump (loc : UInt8) : Covers first [.jmp loc] := .of_none rfl first
  have test (skip : UInt8) : Covers first [.test reg skip] := .of_none rfl first
  obtain ⟨thenSize, sized, joined⟩ := Except.bind_eq_ok.mp joined
  by_cases nonempty : 0 < thenSize
  · simp only [if_pos nonempty, Except.bind_eq_ok, Except.pure_eq_ok] at joined
    obtain ⟨leap, jumped, closed, rfl, elseSize, elseSized, skip, skipped, rfl⟩ := joined
    simp only [Covers, List.forall_mem_append] at *
    exact ⟨⟨⟨condition, test skip⟩, elseCovers, jump leap⟩, thenCovers⟩
  · simp only [if_neg nonempty, Except.bind_eq_ok, Except.pure_eq_ok] at joined
    obtain ⟨closed, rfl, elseSize, elseSized, skip, skipped, rfl⟩ := joined
    simp only [Covers, List.forall_mem_append] at *
    exact ⟨⟨⟨condition, test skip⟩, elseCovers⟩, thenCovers⟩

end Covers

/-- A step of the generator as a run, with the searches behind its code. -/
def RunsTo (g : Scope) (code : Bytecode) (g' : Scope) : Prop :=
  ∃ searches, Runs g searches g' ∧ Covers searches code

namespace RunsTo

variable {g g₁ g₂ : Scope} {code code' : Bytecode}

theorem of_none {instr : Instruction} (none : instr.lookedUp = []) (g : Scope) : RunsTo g [instr] g :=
  ⟨[], .refl g, .of_none none []⟩

theorem trans (left : RunsTo g code g₁) (right : RunsTo g₁ code' g₂) : RunsTo g (code ++ code') g₂ := by
  obtain ⟨first, leftRun, leftCovers⟩ := left
  obtain ⟨second, rightRun, rightCovers⟩ := right
  exact ⟨first ++ second, leftRun.trans rightRun, leftCovers.append rightCovers⟩

theorem counter (varCount : UInt8) (g : Scope) : RunsTo g [] { g with self := { g.self with varCount } } :=
  ⟨[], .counter varCount (.refl _), fun _ member => absurd member List.not_mem_nil⟩

theorem pushed {reg : VarRef} (allocated : g.push = .ok (reg, g₁)) (rest : RunsTo g₁ code g₂) :
    RunsTo g code g₂ := by
  obtain ⟨varCount, -, -, rfl⟩ := Scope.push_ok allocated
  exact (counter varCount g).trans rest

/-- A found reference that an instruction moves or calls. -/
theorem search {x : Name} {instr : Instruction} {ref : VarRef} (found : (g.searchEnv x).1 = some ref)
    (used : instr.lookedUp = [ref]) : RunsTo g [instr] (g.searchEnv x).2 := by
  refine ⟨[⟨g, x, []⟩], .search x (.refl _), List.forall_mem_singleton.mpr ?_⟩
  rw [used]
  exact List.forall_mem_singleton.mpr ⟨_, List.mem_cons_self, found⟩

end RunsTo

private theorem leaf_runs {g g' : Scope} {out : VarRef} {e : Expr} {instr : Instruction}
    (single : leafInstr g out e = some (instr, g')) : RunsTo g [instr] g' := by
  unfold leafInstr at single
  split at single
  · obtain ⟨val, -, same⟩ := Option.map_eq_some_iff.mp single
    cases same
    exact .of_none rfl g
  · next name =>
    split at single
    · next reg g₁ found =>
      cases single
      have searched : RunsTo g [.mov out reg] (g.searchEnv name).2 := .search (congrArg Prod.fst found) rfl
      rwa [found] at searched
    · contradiction
  all_goals first | contradiction | (cases single; exact .of_none rfl g)

private theorem lookedUp_of_sources {instr : Instruction} (none : instr.sources = []) : instr.lookedUp = [] := by
  cases instr
  case mov | callLocal => cases none
  all_goals rfl

private theorem genericApply_runs (g : Scope) (module : Option Name) (name : Name) (out : VarRef)
    (args : List VarRef) (arity : UInt8) :
    RunsTo g [(g.genericApply module name out args arity).1] (g.genericApply module name out args arity).2 := by
  have plain (label : Name) : RunsTo g [.call out label arity args] (g.searchEnv name).2 :=
    ⟨[⟨g, name, []⟩], .search name (.refl _), .of_none rfl _⟩
  rw [g.genericApply_scope]
  unfold Scope.genericApply
  cases searched : g.searchEnv name with
  | mk result after =>
    rw [searched] at plain
    cases result with
    | none => cases module <;> exact plain _
    | some varRef =>
      cases module with
      | none =>
        have called : RunsTo g [.callLocal out varRef args] (g.searchEnv name).2 :=
          .search (congrArg Prod.fst searched) rfl
        rwa [searched] at called
      | some module => exact plain _

private theorem finishOperation_runs {g g' : Scope} {out : VarRef} {locations : List VarRef} {e : Expr}
    {instr : Instruction} (finished : finishOperation g out locations e = .ok (instr, g')) :
    RunsTo g [instr] g' := by
  unfold finishOperation at finished
  split at finished
  · next module name args =>
    unfold Scope.applyOp at finished
    split at finished
    · next emitter found =>
      obtain ⟨_, emitted, same⟩ := Except.bind_eq_ok.mp finished
      cases same
      obtain ⟨before, after, split, -⟩ := List.lookup_eq_some_iff.mp found
      have sources := builtins_sources (name, emitter) (by rw [split]; simp) _ _ _ emitted
      exact .of_none (lookedUp_of_sources sources) g
    · have runs := genericApply_runs g module name out locations (UInt8.ofNat args.length)
      rwa [Except.ok.inj finished] at runs
  · cases finished
    exact .of_none rfl g
  · cases finished
    exact .of_none rfl g
  · contradiction

/-- A closure: its own run, finished with the list that its instruction carries. -/
private theorem closure_runs {g child child' : Scope} {params : List Name} {code : Bytecode} {out : VarRef}
    {jump arity : UInt8} (entered : g.child params = .ok child) (inside : RunsTo child code child') :
    RunsTo g (.anonFn out jump arity child'.self.upvals :: (code ++ [.return])) (child'.leave g) := by
  obtain ⟨inner, run, covers⟩ := inside
  refine ⟨inner.map (.finish child'.self.upvals) ++ [], .closure entered run (.refl _), ?_⟩
  rw [List.append_nil]
  have creation : Covers (inner.map (.finish child'.self.upvals))
      [.anonFn out jump arity child'.self.upvals] := .of_none rfl _
  have returns : Covers (inner.map (.finish child'.self.upvals)) [.return] := .of_none rfl _
  exact List.forall_mem_append.mpr ⟨creation, List.forall_mem_append.mpr ⟨covers.finish _, returns⟩⟩

/-- Generation is a run: what it moves or calls it has searched for. -/
theorem Generates.runs {g g' : Scope} {piece : Piece} {code : Bytecode} {trace : GenTrace}
    (run : Generates g piece code g' trace) : RunsTo g code g' := by
  induction run with
  | leaf single => exact leaf_runs single
  | shortCircuit named first second sides joined tested ih₁ ih₂ =>
    obtain ⟨left, leftRun, leftCovers⟩ := ih₁
    obtain ⟨right, rightRun, rightCovers⟩ := ih₂
    refine ⟨left ++ right, leftRun.trans rightRun, .joined joined ?_ ?_⟩
    · exact leftCovers.mono (List.subset_append_left _ _)
    · have covers := rightCovers.mono (List.subset_append_right left _)
      obtain ⟨rfl, rfl⟩ | ⟨rfl, rfl⟩ := sides
      · rwa [List.append_nil]
      · exact covers
  | operation operands evaluated generated popped snapshots placed finished ih =>
    obtain ⟨varCount, -, rfl⟩ := Scope.argLocations_ok popped
    exact ih.trans ((RunsTo.counter varCount _).trans (finishOperation_runs finished))
  | branch first second allocated third joined tested ih₁ ih₂ ih₃ =>
    obtain ⟨branches, branchesRun, branchesCover⟩ := ih₁.trans ih₂
    obtain ⟨value, valueRun, valueCovers⟩ := ih₃.pushed allocated
    refine ⟨branches ++ value, branchesRun.trans valueRun, .joined joined ?_ ?_⟩
    · exact valueCovers.mono (List.subset_append_right _ _)
    · exact branchesCover.mono (List.subset_append_left _ _)
  | @binding g g₁ g₂ out var left right code rightTrace fresh allocated generated ih =>
    obtain ⟨searches, value, covers⟩ := ih.pushed allocated
    obtain ⟨varCount, -, rfl, -⟩ := Scope.push_ok allocated
    refine ⟨searches ++ [], value.trans (.bind left varCount (.refl _)), ?_⟩
    rwa [List.append_nil]
  | closure entered generated sized jumped ih => exact closure_runs entered ih
  | argsNil g | exprsNil g => exact ⟨[], .refl g, fun _ member => absurd member List.not_mem_nil⟩
  | argsCons allocated first second ih₁ ih₂ => exact (ih₁.pushed allocated).trans ih₂
  | blockNil g out => exact .of_none rfl g
  | blockCons first second ih₁ ih₂ | exprsCons first second ih₁ ih₂ => exact ih₁.trans ih₂

/-- At every moment of a generation, what the searches of a run have found leads to the register of the
innermost function that bound the name then; and a closure that is generated carries the captured list with
which its own searches finish. -/
theorem closures_resolve {g g' : Scope} {searches : List Search} (reached : Reachable g)
    (run : Runs g searches g') :
    (∀ search ∈ searches, (∀ upvals ∈ search.lists g', upvals.length ≤ MAX_UPVALUES) → search.Resolves g') ∧
      ∀ out params body code after, generateExpr g' out (.anonFn params body) = .ok (code, after) →
        ∃ child child' inner jump rest, g'.child params = .ok child ∧ Runs child inner child' ∧
          code = .anonFn out jump (UInt8.ofNat params.length) child'.self.upvals :: rest ∧
          Covers inner rest ∧ Runs g' (inner.map (.finish child'.self.upvals)) after := by
  refine ⟨run.resolves reached.registers, fun out params body code after generated => ?_⟩
  obtain ⟨trace, -, closure⟩ := traced _ _ _ _ _ generated
  cases closure with
  | leaf single => cases single
  | operation operands => cases operands
  | @closure _ child child' _ _ _ bodyCode bodyTrace size jump entered body sized jumped =>
    obtain ⟨inner, inside, covers⟩ := body.runs
    have returns : Covers inner [.return] := .of_none rfl inner
    refine ⟨child, child', inner, jump, _, entered, inside, rfl, ?_, ?_⟩
    · exact List.forall_mem_append.mpr ⟨covers, returns⟩
    · have whole := Runs.closure entered inside (.refl (child'.leave g'))
      rwa [List.append_nil] at whole

/-- The generator of `fn f(a)`. -/
def outerScope : Scope where
  self := { varCount := 1, moduleName := bytes "M", functionName := bytes "f",
            env := [(bytes "a", .register 1)], upvals := [] }
  parents := []

def anonymous : FnGenerator where
  varCount := 0
  moduleName := bytes "M"
  functionName := bytes "anon"
  env := []
  upvals := []

/-- `a` in a closure in a closure of `fn f(a)`: upvalue zero of the inner one leads to register one. -/
theorem closures_resolve_nested : ∃ search g, Search.lists search g = [[.upvalue 0], [.register 1], []] ∧
    search.Resolves g := by
  have reached : Reachable outerScope :=
    .start (show FnGenerator.new (bytes "M") (bytes "f") [bytes "a"] = .ok outerScope.self from rfl)
  have middle : outerScope.child [] = .ok ⟨anonymous, [outerScope.self]⟩ := rfl
  have inner : Scope.child ⟨anonymous, [outerScope.self]⟩ [] = .ok ⟨anonymous, [anonymous, outerScope.self]⟩ := rfl
  have run : Runs outerScope
      [⟨⟨anonymous, [anonymous, outerScope.self]⟩, bytes "a", [[.upvalue 0], [.register 1]]⟩] outerScope :=
    .closure middle (.closure inner (.search (bytes "a") (.refl _)) (.refl _)) (.refl _)
  exact ⟨_, _, rfl, (closures_resolve reached run).1 _ List.mem_cons_self (by decide)⟩

end Owl.Compiler
