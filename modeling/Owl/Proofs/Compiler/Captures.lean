import Owl.Proofs.Compiler.Variables

/-! # What closures capture

A search goes up the chain of generators to the innermost one that binds the name, and every generator that
it passes captures a reference. Captured lists therefore hold what the names of the generated code are bound
to, and nothing else. As no `let` rebinds a name of the chain, the binding of a name does not move.
-/

namespace Owl.Compiler

variable {chain chain' : List FnGenerator} {self : FnGenerator} {i : ℕ} {x : Name} {v : VarRef}

/-- The generators that a search goes through, innermost first. -/
def Scope.generators (g : Scope) : List FnGenerator := g.self :: g.parents

/-- The innermost generator that binds a name stands at a position, and this is the reference there. -/
def Binds : List FnGenerator → ℕ → Name → VarRef → Prop
  | [], _, _, _ => False
  | self :: _, 0, x, v => self.env.lookup x = some v
  | self :: parents, i + 1, x, v => self.env.lookup x = none ∧ Binds parents i x v

/-- The captured list of the generator at a position. -/
def upvalsAt : List FnGenerator → ℕ → List VarRef
  | [], _ => []
  | self :: _, 0 => self.upvals
  | _ :: parents, i + 1 => upvalsAt parents i

private theorem ChainExtends.binds_iff (extension : ChainExtends chain chain') (i : ℕ) (x : Name) (v : VarRef) :
    Binds chain' i x v ↔ Binds chain i x v := by
  induction extension generalizing i with
  | nil => rfl
  | cons head _ ih =>
    cases i with
    | zero => rw [Binds, Binds, head.env]
    | succ i => rw [Binds, Binds, head.env, ih]

private theorem ChainExtends.upvalsAt_subset (extension : ChainExtends chain chain') (i : ℕ) :
    upvalsAt chain i ⊆ upvalsAt chain' i := by
  induction extension generalizing i with
  | nil => exact fun _ member => member
  | cons head _ ih =>
    cases i with
    | zero => exact head.upvals.subset
    | succ i => exact ih i

private theorem exists_of_binds : ∀ {chain : List FnGenerator} {i : ℕ}, Binds chain i x v →
    (chain.any fun generator => (generator.env.lookup x).isSome) = true
  | [], _, binds => binds.elim
  | _ :: _, 0, binds => by
    rw [Binds] at binds
    simp [binds]
  | self :: parents, i + 1, binds => by rw [List.any_cons, exists_of_binds binds.2, Bool.or_true]

private theorem FnGenerator.mem_pushUpval (self : FnGenerator) (v : VarRef) : v ∈ (self.pushUpval v).2.upvals := by
  rw [pushUpval]
  split
  · next index found =>
    obtain ⟨inside, same, -⟩ := List.findIdx?_eq_some_iff_getElem.mp found
    rw [← of_decide_eq_true same]
    exact List.getElem_mem inside
  · exact List.mem_append_right _ List.mem_cons_self

private theorem FnGenerator.pushUpval_sources (self : FnGenerator) {v w : VarRef}
    (member : w ∈ (self.pushUpval v).2.upvals) : w ∈ self.upvals ∨ w = v := by
  rw [pushUpval] at member
  split at member
  · exact .inl member
  · exact (List.mem_append.mp member).imp_right List.mem_singleton.mp

private theorem FnGenerator.pushUpval_upvalue (self : FnGenerator) (v : VarRef) :
    ∃ index, (self.pushUpval v).1 = .upvalue index := by
  rw [pushUpval]
  split
  · exact ⟨_, rfl⟩
  · exact ⟨_, rfl⟩

/-- A search that finds a register has found it in the innermost generator. -/
theorem searchChain_register {r : UInt8} (found : (searchChain x chain).1 = some (.register r)) :
    Binds chain 0 x (.register r) := by
  cases chain with
  | nil => cases found
  | cons self parents =>
    rw [searchChain] at found
    split at found
    · next same => exact same.trans found
    · split at found
      · next upval parents' _ =>
        obtain ⟨index, same⟩ := self.pushUpval_upvalue upval
        cases same.symm.trans (Option.some.inj found)
      · cases found

theorem searchChain_of_binds (binds : Binds chain 0 x v) : searchChain x chain = (some v, chain) := by
  cases chain with
  | nil => exact binds.elim
  | cons self parents =>
    rw [Binds] at binds
    rw [searchChain, binds]

/-- A captured register is what the name is bound to in the parent. -/
theorem searchChain_sources {r : UInt8} : ∀ {chain : List FnGenerator} {i : ℕ},
    .register r ∈ upvalsAt (searchChain x chain).2 i →
      .register r ∈ upvalsAt chain i ∨ Binds chain (i + 1) x (.register r)
  | [], _, member => .inl member
  | self :: parents, i, member => by
    rw [searchChain] at member
    split at member
    · exact .inl member
    · next unbound =>
      split at member
      · next upval parents' found =>
        cases i with
        | zero =>
          obtain old | rfl := self.pushUpval_sources member
          · exact .inl old
          · exact .inr ⟨unbound, searchChain_register (congrArg Prod.fst found)⟩
        | succ i =>
          have same : parents' = (searchChain x parents).2 := (congrArg Prod.snd found).symm
          change _ ∈ upvalsAt parents' i at member
          rw [same] at member
          exact (searchChain_sources member).imp_right fun binds => ⟨unbound, binds⟩
      · next parents' found =>
        cases i with
        | zero => exact .inl member
        | succ i =>
          have same : parents' = (searchChain x parents).2 := (congrArg Prod.snd found).symm
          change _ ∈ upvalsAt parents' i at member
          rw [same] at member
          exact (searchChain_sources member).imp_right fun binds => ⟨unbound, binds⟩

/-- Every generator that a search passes captures what its parent has found. -/
theorem searchChain_captures : ∀ {chain : List FnGenerator} {i : ℕ}, Binds chain (i + 1) x v →
    v ∈ upvalsAt (searchChain x chain).2 i
  | [], _, binds => binds.elim
  | self :: parents, i, ⟨unbound, binds⟩ => by
    simp only [searchChain, unbound]
    cases i with
    | zero =>
      rw [searchChain_of_binds binds]
      exact self.mem_pushUpval v
    | succ i =>
      have captured := searchChain_captures binds
      split
      · next upval parents' found =>
        rw [found] at captured
        exact captured
      · next parents' found =>
        rw [found] at captured
        exact captured

theorem Scope.searchEnv_eq (g : Scope) (x : Name) :
    (g.searchEnv x).1 = (searchChain x g.generators).1 ∧
      (g.searchEnv x).2.generators = (searchChain x g.generators).2 := by
  rw [searchEnv, generators, searchChain]
  split
  · exact ⟨rfl, rfl⟩
  · split
    · exact ⟨rfl, rfl⟩
    · exact ⟨rfl, rfl⟩

/-- Behind a nested function its parents are the running ones again. -/
theorem Scope.leave_generators {g child : Scope} (extension : ChainExtends g.generators child.parents) :
    (child.leave g).generators = child.parents := by
  rw [leave]
  cases parents : child.parents with
  | nil =>
    rw [parents] at extension
    cases extension
  | cons self rest => rfl

mutual

/-- The names that an expression looks up. A qualified call looks its name up and does not use what it finds;
only a capture is left of it, so it counts where captures do. -/
def Expr.names (captured : Bool) : Expr → List Name
  | .ident name => [name]
  | .let _ right => right.names captured
  | .if condition body elseBody =>
      exprNames captured body ++ exprNames captured elseBody ++ condition.names captured
  | .apply module name args =>
      if IsShortCircuit name then
        match args with
        | left :: right :: _ => left.names captured ++ right.names captured
        | _ => []
      else
        exprNames captured args ++
          if (builtins.lookup name).isNone && (module.isNone || captured) then [name] else []
  | .tuple elems => exprNames captured elems
  | .list elems => exprNames captured elems
  | .anonFn params body => (exprNames true body).filter fun name => name ∉ params
  | _ => []

def exprNames (captured : Bool) : List Expr → List Name
  | [] => []
  | e :: es => e.names captured ++ exprNames captured es

end

def Piece.names (captured : Bool) : Piece → List Name
  | expr _ e => e.names captured
  | args es => exprNames captured es
  | block _ es => exprNames captured es
  | exprs _ es => exprNames captured es

/-- What a run that looks up some names leaves in the captured lists. -/
structure Captures (g : Scope) (names : List Name) (g' : Scope) : Prop where
  binds : ∀ i x v, Binds g'.generators (i + 1) x v ↔ Binds g.generators (i + 1) x v
  grows : ∀ i, upvalsAt g.generators i ⊆ upvalsAt g'.generators i
  sources : ∀ i r, .register r ∈ upvalsAt g'.generators i → .register r ∈ upvalsAt g.generators i ∨
    ∃ x ∈ names, Binds g.generators (i + 1) x (.register r)
  captured : ∀ i, ∀ x ∈ names, ∀ v, Binds g.generators (i + 1) x v → v ∈ upvalsAt g'.generators i

namespace Captures

variable {g g₁ g₂ : Scope} {first second : List Name}

theorem refl (g : Scope) : Captures g [] g where
  binds _ _ _ := Iff.rfl
  grows _ _ member := member
  sources _ _ member := .inl member
  captured _ _ member := absurd member List.not_mem_nil

theorem trans (left : Captures g first g₁) (right : Captures g₁ second g₂) :
    Captures g (first ++ second) g₂ where
  binds i x v := (right.binds i x v).trans (left.binds i x v)
  grows i _ member := right.grows i (left.grows i member)
  sources i r member := by
    obtain member | ⟨x, named, binds⟩ := right.sources i r member
    · obtain member | ⟨x, named, binds⟩ := left.sources i r member
      · exact .inl member
      · exact .inr ⟨x, List.mem_append_left _ named, binds⟩
    · exact .inr ⟨x, List.mem_append_right _ named, (left.binds i x _).mp binds⟩
  captured i x named v binds := by
    obtain named | named := List.mem_append.mp named
    · exact right.grows i (left.captured i x named v binds)
    · exact right.captured i x named v ((left.binds i x v).mpr binds)

/-- One search. -/
theorem search (g : Scope) (x : Name) : Captures g [x] (g.searchEnv x).2 := by
  have same := (g.searchEnv_eq x).2
  have extension := searchChain_extends x g.generators
  constructor
  · intro i y v
    rw [same]
    exact extension.binds_iff (i + 1) y v
  · intro i
    rw [same]
    exact extension.upvalsAt_subset i
  · intro i r member
    rw [same] at member
    exact (searchChain_sources member).imp_right fun binds => ⟨x, List.mem_singleton_self x, binds⟩
  · intro i y named v binds
    rw [List.mem_singleton.mp named] at binds
    rw [same]
    exact searchChain_captures binds

/-- A step that leaves the chain as it is, but for register counters. -/
private theorem of_counter (varCount : UInt8) : Captures g [] { g with self := { g.self with varCount } } := by
  constructor
  · exact fun _ _ _ => Iff.rfl
  · intro i v member
    cases i with
    | zero | succ => exact member
  · intro i r member
    cases i with
    | zero | succ => exact .inl member
  · exact fun _ _ member => absurd member List.not_mem_nil

/-- A step that captures nothing. -/
theorem followed (left : Captures g first g₁) (right : Captures g₁ [] g₂) : Captures g first g₂ := by
  have both := left.trans right
  rwa [List.append_nil] at both

/-- A new variable, whose name the parents do not know. -/
theorem insert {left : Name} (fresh : ∀ i v, ¬ Binds g.generators (i + 1) left v) (var : VarRef) :
    Captures g [] (g.insertEnv left var) := by
  constructor
  · intro i x v
    change (g.insertEnv left var).self.env.lookup x = none ∧ _ ↔ g.self.env.lookup x = none ∧ _
    rw [g.lookup_insertEnv]
    by_cases same : x = left
    · subst same
      rw [if_pos rfl]
      refine iff_of_false (fun bound => ?_) (fresh i v)
      cases bound.1
    · rw [if_neg same]
      rfl
  · intro i v member
    cases i with
    | zero | succ => exact member
  · intro i r member
    cases i with
    | zero | succ => exact .inl member
  · exact fun _ _ member => absurd member List.not_mem_nil

/-- The parent after a closure, whose names look past its own parameters. -/
theorem leave {child child' : Scope} {params : List Name} (entered : child.parents = g.generators)
    (parameters : ∀ x, child.self.env.lookup x = none ↔ x ∉ params)
    (extension : ChainExtends g.generators child'.parents) (body : Captures child first child') :
    Captures g (first.filter fun name => name ∉ params) (child'.leave g) := by
  have outer := Scope.leave_generators extension
  have past (i : ℕ) (x : Name) (v : VarRef) : Binds child.generators (i + 2) x v ↔
      x ∉ params ∧ Binds g.generators (i + 1) x v := by
    rw [Scope.generators, Binds, parameters, entered]
  constructor
  · intro i x v
    rw [outer]
    exact extension.binds_iff (i + 1) x v
  · intro i
    rw [outer]
    exact extension.upvalsAt_subset i
  · intro i r member
    rw [outer] at member
    obtain old | ⟨x, named, binds⟩ := body.sources (i + 1) r member
    · rw [Scope.generators, entered] at old
      exact .inl old
    · obtain ⟨free, binds⟩ := (past i x _).mp binds
      exact .inr ⟨x, List.mem_filter.mpr ⟨named, decide_eq_true free⟩, binds⟩
  · intro i x named v binds
    obtain ⟨named, free⟩ := List.mem_filter.mp named
    rw [outer]
    exact body.captured (i + 1) x named v ((past i x v).mpr ⟨of_decide_eq_true free, binds⟩)

end Captures

/-- The register of a parameter, counted from one; of equal names the last has it. -/
def paramRegister : List Name → Name → Option ℕ
  | [], _ => none
  | param :: params, x =>
      ((paramRegister params x).map (· + 1)).or (if x = param then some 1 else none)

private theorem paramRegister_none {params : List Name} : paramRegister params x = none ↔ x ∉ params := by
  induction params with
  | nil => simp [paramRegister]
  | cons param params ih =>
    rw [paramRegister, Option.or_eq_none_iff, Option.map_eq_none_iff, ih, List.mem_cons, not_or, and_comm]
    by_cases same : x = param <;> simp [same]

private theorem lookup_bindArgs {params : List Name} {varCount total : UInt8} {env result : Env}
    (bound : bindArgs params varCount env = .ok (total, result)) (x : Name) :
    result.lookup x = ((paramRegister params x).map fun k =>
      VarRef.register (UInt8.ofNat (varCount.toNat + k))).or (env.lookup x) := by
  induction params generalizing varCount env with
  | nil =>
    cases bound
    rfl
  | cons param params ih =>
    obtain ⟨next, added, rest⟩ := Except.bind_eq_ok.mp bound
    have position : next = UInt8.ofNat (varCount.toNat + 1) := by
      rw [show varCount.toNat + 1 = next.toNat from (checkedAdd_ok added).symm, UInt8.ofNat_toNat]
    have raised (k : ℕ) : next.toNat + k = varCount.toNat + (k + 1) := by
      have := checkedAdd_ok added
      have : (1 : UInt8).toNat = 1 := rfl
      omega
    rw [ih rest, paramRegister, List.lookup_cons]
    simp only [raised]
    by_cases same : x = param
    · rw [if_pos same, beq_iff_eq.mpr same, position]
      cases paramRegister params x <;> rfl
    · rw [if_neg same, beq_false_of_ne same, Option.or_none]
      cases paramRegister params x <;> rfl

/-- A new generator knows its parameters and has captured nothing. -/
theorem FnGenerator.lookup_new {self : FnGenerator} {moduleName functionName : Name} {params : List Name}
    (created : FnGenerator.new moduleName functionName params = .ok self) :
    self.varCount.toNat = params.length ∧ self.upvals = [] ∧ ∀ x, self.env.lookup x =
      (paramRegister params x).map fun k => VarRef.register (UInt8.ofNat k) := by
  simp only [FnGenerator.new, Except.bind_eq_ok, Prod.exists, Except.pure_eq_ok] at created
  obtain ⟨total, env, bound, rfl⟩ := created
  refine ⟨(bindArgs_ok bound).trans (Nat.zero_add _), rfl, fun x => ?_⟩
  have looked := lookup_bindArgs bound x
  simpa using looked

theorem FnGenerator.lookup_new_none {self : FnGenerator} {moduleName functionName : Name}
    {params : List Name} (created : FnGenerator.new moduleName functionName params = .ok self) (x : Name) :
    self.env.lookup x = none ↔ x ∉ params := by
  rw [(lookup_new created).2.2 x, Option.map_eq_none_iff, paramRegister_none]

private theorem leaf_captures {g g' : Scope} {out : VarRef} {e : Expr} {instr : Instruction}
    (single : leafInstr g out e = some (instr, g')) : Captures g (e.names true) g' := by
  unfold leafInstr at single
  split at single
  · obtain ⟨val, -, same⟩ := Option.map_eq_some_iff.mp single
    cases same
    exact .refl g
  · next name =>
    split at single
    · next reg g₁ found =>
      cases single
      have searched := Captures.search g name
      rwa [found] at searched
    · contradiction
  all_goals first | contradiction | (cases single; exact .refl g)

theorem Scope.genericApply_scope (g : Scope) (module : Option Name) (name : Name) (retLoc : VarRef)
    (args : List VarRef) (arity : UInt8) :
    (g.genericApply module name retLoc args arity).2 = (g.searchEnv name).2 := by
  unfold Scope.genericApply
  generalize g.searchEnv name = searched
  rcases searched with ⟨_ | varRef, g₁⟩ <;> cases module <;> rfl

/-- What an operation adds to the names of its operands: the name of a call. -/
theorem finishOperation_captures {g g' : Scope} {out : VarRef} {locations : List VarRef} {e : Expr}
    {es : List Expr} {instr : Instruction} (operands : e.operandExprs = some es)
    (finished : finishOperation g out locations e = .ok (instr, g')) :
    ∃ called, e.names true = exprNames true es ++ called ∧ Captures g called g' := by
  cases e <;> simp only [Expr.operandExprs, reduceCtorEq] at operands
  case apply module name args =>
    split at operands
    · contradiction
    · next notShort =>
      cases operands
      refine ⟨if (builtins.lookup name).isNone && (module.isNone || true) then [name] else [], ?_, ?_⟩
      · rw [Expr.names.eq_def]
        simp only [notShort, if_false]
      rw [finishOperation, Scope.applyOp] at finished
      split at finished
      · next emitter found =>
        obtain ⟨_, -, same⟩ := Except.bind_eq_ok.mp finished
        cases same
        rw [found]
        exact .refl g
      · next unknown =>
        have after : g' = (g.searchEnv name).2 :=
          (Prod.mk.inj (Except.ok.inj finished)).2.symm.trans (g.genericApply_scope ..)
        rw [unknown, after]
        simpa using Captures.search g name
  all_goals
    cases operands
    cases finished
    exact ⟨[], (List.append_nil _).symm, .refl g⟩

theorem Scope.push_captures {g g' : Scope} {reg : VarRef} (allocated : g.push = .ok (reg, g')) :
    Captures g [] g' := by
  obtain ⟨varCount, -, -, rfl⟩ := Scope.push_ok allocated
  exact .of_counter varCount

theorem Generates.captures {g g' : Scope} {piece : Piece} {code : Bytecode} {trace : GenTrace}
    (run : Generates g piece code g' trace) : Captures g (piece.names true) g' := by
  induction run with
  | leaf single => exact leaf_captures single
  | shortCircuit named first second sides joined tested ih₁ ih₂ =>
    have both := ih₁.trans ih₂
    rw [Piece.names, Expr.names.eq_def]
    simp only [named, if_true]
    exact both
  | operation operands evaluated generated popped snapshots placed finished ih =>
    obtain ⟨varCount, -, rfl⟩ := Scope.argLocations_ok popped
    obtain ⟨called, names, call⟩ := finishOperation_captures operands finished
    rw [Piece.names, names]
    exact (ih.followed (.of_counter varCount)).trans call
  | branch first second allocated third joined tested ih₁ ih₂ ih₃ =>
    exact ((ih₁.trans ih₂).followed (Scope.push_captures allocated)).trans ih₃
  | @binding g g₁ g₂ out var left right code rightTrace fresh allocated generated ih =>
    have value := (Scope.push_captures allocated).trans ih
    refine value.followed (.insert (fun i v binds => ?_) var)
    have outside : Binds g.parents i left v := ((value.binds i left v).mp binds).2
    rw [Scope.identifierExistsInScope, List.any_cons, exists_of_binds outside, Bool.or_true] at fresh
    cases fresh
  | closure entered generated sized jumped ih =>
    obtain ⟨outer, created⟩ := Scope.child_parents entered
    have extension := generated.frame.2.2.2
    rw [outer] at extension
    exact .leave outer (FnGenerator.lookup_new_none created) extension ih
  | argsNil g => exact .refl g
  | argsCons allocated first second ih₁ ih₂ =>
    exact ((Scope.push_captures allocated).trans ih₁).trans ih₂
  | blockNil g out => exact .refl g
  | exprsNil g out => exact .refl g
  | blockCons first second ih₁ ih₂ | exprsCons first second ih₁ ih₂ => exact ih₁.trans ih₂

end Owl.Compiler
