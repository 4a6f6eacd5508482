import Owl.Soundness.OperandWiring
import Owl.Soundness.Paths
import Owl.Proofs.Compiler.Captures

/-! # Registers that are written before they are read

The register counter and the environment of the generator depend on the syntax alone, so what a piece of code does
to the paths through it can be said of the source. The source says it in the order in which it is executed, with
the registers that the generator allots in its own order: the sides of an `if` before its condition.
-/

namespace Owl.Compiler

/-- A register that the caller has filled. -/
def IsParameter (params : List Name) (r : UInt8) : Prop := 0 < r.toNat ∧ r.toNat ≤ params.length

/-- Every register that an instruction of the path reads is a parameter, or an earlier instruction has written it. -/
def WritesFirst (params : List Name) (visited : List Instruction) : Prop :=
  ∀ earlier instr later, visited = earlier ++ instr :: later → ∀ r, .register r ∈ instr.reads →
    IsParameter params r ∨ ∃ before ∈ earlier, before.writes = some (.register r)

/-- The environment that bindings make from a counter on, newest first. -/
def Bindings.env (bindings : Bindings) (n : ℕ) : Env :=
  (bindings.map fun binding => (binding.1, .register (UInt8.ofNat (n + binding.2)))).reverse

/-- Parameters have the registers from one on. -/
def paramBindings (params : List Name) : Bindings := params.zipIdx 1

def registerAt (n : ℕ) : VarRef := .register (UInt8.ofNat n)

def Instruction.ends : Instruction → Bool
  | .exit _ | .return => true
  | _ => false

/-- The last instruction of a call reads a register: an operand, or the function that is called. -/
def callNeeds (r : UInt8) (module : Option Name) (name : Name) (out : VarRef) (locations : List VarRef) (env : Env) :
    Bool :=
  match builtins.lookup name with
  | some emitter =>
      match emitter out locations with
      | .ok instr => decide (.register r ∈ instr.reads)
      | .error _ => false
  | none => decide (.register r ∈ locations) || module.isNone && decide (env.lookup name = some (.register r))

/-- The last instruction of a call goes on and has not written a register. -/
def callSpares (r : UInt8) (name : Name) (out : VarRef) (locations : List VarRef) : Bool :=
  match builtins.lookup name with
  | some emitter =>
      match emitter out locations with
      | .ok instr => !instr.ends && decide (instr.writes ≠ some (.register r))
      | .error _ => true
  | none => decide (out ≠ .register r)

mutual

/-- Some way to the end of an expression leaves a register unwritten, given the output register and the counter. -/
def Expr.spares (r : UInt8) : Expr → VarRef → ℕ → Bool
  | .let _ right, _, n => right.spares r (registerAt (n + 1)) (n + 1)
  | .if condition body elseBody, out, n =>
      condition.spares r (registerAt (n + leaks body + leaks elseBody + 1)) (n + leaks body + leaks elseBody + 1) &&
        (blockSpares r body out n || blockSpares r elseBody out (n + leaks body))
  | .apply _ name args, out, n =>
      if IsShortCircuit name then
        match args with
        | left :: _ :: _ => left.spares r out n
        | _ => true
      else argumentsSpare r args n && callSpares r name out (registersFrom (n + leaks args + 1) args.length)
  | .tuple elems, out, n => argumentsSpare r elems n && decide (out ≠ .register r)
  | .list elems, out, n => argumentsSpare r elems n && decide (out ≠ .register r)
  | _, out, _ => decide (out ≠ .register r)

def argumentsSpare (r : UInt8) : List Expr → ℕ → Bool
  | [], _ => true
  | e :: es, n => e.spares r (registerAt (n + 1)) (n + 1) && argumentsSpare r es (n + 1 + e.leak)

def blockSpares (r : UInt8) : List Expr → VarRef → ℕ → Bool
  | [], out, _ => decide (out ≠ .register r)
  | e :: es, out, n => e.spares r out n && exprsSpare r es out (n + e.leak)

def exprsSpare (r : UInt8) : List Expr → VarRef → ℕ → Bool
  | [], _, _ => true
  | e :: es, out, n => e.spares r out n && exprsSpare r es out (n + e.leak)

end

mutual

/-- Some way through an expression reads a register before it writes it, given also the environment. -/
def Expr.needs (r : UInt8) : Expr → VarRef → ℕ → Env → Bool
  | .ident name, _, _, env => decide (env.lookup name = some (.register r))
  | .let _ right, _, n, env => right.needs r (registerAt (n + 1)) (n + 1) env
  | .if condition body elseBody, out, n, env =>
      let afterThen := (exprBindings body).env n ++ env
      let afterElse := (exprBindings elseBody).env (n + leaks body) ++ afterThen
      let count := n + leaks body + leaks elseBody + 1
      condition.needs r (registerAt count) count afterElse ||
        condition.spares r (registerAt count) count && (decide (registerAt count = .register r) ||
          blockNeeds r body out n env || blockNeeds r elseBody out (n + leaks body) afterThen)
  | .apply module name args, out, n, env =>
      if IsShortCircuit name then
        match args with
        | left :: right :: _ =>
            left.needs r out n env || left.spares r out n && (decide (out = .register r) ||
              right.needs r out (n + left.leak) (left.bindings.env n ++ env))
        | _ => false
      else
        argumentsNeed r args n env || argumentsSpare r args n &&
          callNeeds r module name out (registersFrom (n + leaks args + 1) args.length)
            ((argBindings args).env n ++ env)
  | .tuple elems, _, n, env =>
      argumentsNeed r elems n env ||
        argumentsSpare r elems n && decide (.register r ∈ registersFrom (n + leaks elems + 1) elems.length)
  | .list elems, _, n, env =>
      argumentsNeed r elems n env ||
        argumentsSpare r elems n && decide (.register r ∈ registersFrom (n + leaks elems + 1) elems.length)
  | .anonFn params body, _, _, env =>
      ((Expr.anonFn params body).names true).any fun x => decide (env.lookup x = some (.register r))
  | _, _, _, _ => false

def argumentsNeed (r : UInt8) : List Expr → ℕ → Env → Bool
  | [], _, _ => false
  | e :: es, n, env =>
      e.needs r (registerAt (n + 1)) (n + 1) env || e.spares r (registerAt (n + 1)) (n + 1) &&
        argumentsNeed r es (n + 1 + e.leak) (e.bindings.env (n + 1) ++ env)

def blockNeeds (r : UInt8) : List Expr → VarRef → ℕ → Env → Bool
  | [], _, _, _ => false
  | e :: es, out, n, env =>
      e.needs r out n env || e.spares r out n && exprsNeed r es out (n + e.leak) (e.bindings.env n ++ env)

def exprsNeed (r : UInt8) : List Expr → VarRef → ℕ → Env → Bool
  | [], _, _, _ => false
  | e :: es, out, n, env =>
      e.needs r out n env || e.spares r out n && exprsNeed r es out (n + e.leak) (e.bindings.env n ++ env)

end

/-- The body of a function assigns what it uses: no way through it needs a register other than a parameter, and
every way to its end writes register 0. -/
structure Assigns (params : List Name) (body : List Expr) : Prop where
  uses : ∀ r, ¬ IsParameter params r →
    blockNeeds r body (.register 0) params.length ((paramBindings params).env 0) = false
  result : blockSpares 0 body (.register 0) params.length = false

def Piece.spares (r : UInt8) : Piece → ℕ → Bool
  | expr out e, n => e.spares r out n
  | args es, n => argumentsSpare r es n
  | block out es, n => blockSpares r es out n
  | exprs out es, n => exprsSpare r es out n

def Piece.needs (r : UInt8) : Piece → ℕ → Env → Bool
  | expr out e, n, env => e.needs r out n env
  | args es, n, env => argumentsNeed r es n env
  | block out es, n, env => blockNeeds r es out n env
  | exprs out es, n, env => exprsNeed r es out n env

section Environments

variable {first second : Bindings} {n step : ℕ}

theorem Bindings.env_append (first second : Bindings) (n : ℕ) :
    Bindings.env (first ++ second) n = second.env n ++ first.env n := by
  rw [env, List.map_append, List.reverse_append]
  rfl

theorem Bindings.env_raise (bindings : Bindings) (step n : ℕ) : (bindings.raise step).env n = bindings.env (n + step) := by
  rw [env, env, raise, List.map_map]
  refine congrArg List.reverse (List.map_congr_left fun binding _ => ?_)
  rw [Function.comp_apply, Nat.add_right_comm, Nat.add_assoc]

private theorem Bindings.env_cons (binding : Name × ℕ) (bindings : Bindings) (n : ℕ) :
    Bindings.env (binding :: bindings) n = bindings.env n ++ [(binding.1, registerAt (n + binding.2))] :=
  Bindings.env_append [binding] bindings n

/-- Two steps in sequence. -/
theorem Bindings.env_sequence (first second : Bindings) (step n : ℕ) (env : Env) :
    second.env (n + step) ++ (first.env n ++ env) = Bindings.env (first ++ second.raise step) n ++ env := by
  rw [Bindings.env_append, Bindings.env_raise, List.append_assoc]

theorem Scope.push_registerAt {g g' : Scope} {reg : VarRef} (success : g.push = .ok (reg, g')) :
    reg = registerAt (g.self.varCount.toNat + 1) ∧ g'.self.varCount.toNat = g.self.varCount.toNat + 1 ∧
      g'.self.env = g.self.env := by
  obtain ⟨varCount, next, rfl, rfl⟩ := Scope.push_ok success
  refine ⟨?_, next, rfl⟩
  rw [registerAt, ← next, UInt8.ofNat_toNat]

/-- A run of the generator puts its variables in front of the environment. -/
theorem Generates.env_eq {g g' : Scope} {piece : Piece} {code : Bytecode} {trace : GenTrace}
    (run : Generates g piece code g' trace) :
    g'.self.env = piece.bindings.env g.self.varCount.toNat ++ g.self.env := by
  induction run with
  | leaf single =>
    rw [Piece.bindings, leaf_bindings single]
    exact (leafInstr_extends single).self.env
  | @shortCircuit g g₁ g₂ out module name left right rest leftCode rightCode thenBranch elseBranch code jumps leftTrace
      rightTrace named first second sides joined tested ih₁ ih₂ =>
    have bindings : (Expr.apply module name (left :: right :: rest)).bindings =
        left.bindings ++ right.bindings.raise left.leak := by
      rw [Expr.bindings.eq_def]
      simp only [named, if_true]
    rw [ih₂, ih₁, first.frame.1]
    simp only [Piece.bindings, Piece.leak, bindings]
    exact Bindings.env_sequence ..
  | operation operands evaluated generated popped snapshots placed finished ih =>
    obtain ⟨varCount, -, rfl⟩ := Scope.argLocations_ok popped
    rw [(finishOperation_extends finished).self.env, Piece.bindings, (operation_bindings operands).1]
    exact ih
  | branch first second allocated third joined tested ih₁ ih₂ ih₃ =>
    obtain ⟨-, count, env⟩ := Scope.push_registerAt allocated
    have thenCount := first.frame.1
    have elseCount := second.frame.1
    rw [ih₃, count, env, ih₂, ih₁, elseCount, thenCount]
    simp only [Piece.bindings, Piece.leak, Expr.bindings]
    rw [Bindings.env_sequence, Nat.add_assoc, Nat.add_assoc, Bindings.env_sequence, Nat.add_assoc]
  | @binding g g₁ g₂ out var left right code rightTrace fresh allocated generated ih =>
    obtain ⟨reg, count, env⟩ := Scope.push_registerAt allocated
    change (left, var) :: g₂.self.env = _
    rw [ih, count, env, reg]
    simp only [Piece.bindings, Expr.bindings]
    rw [Bindings.env_append, Bindings.env_raise]
    rfl
  | closure entered generated sized jumped ih =>
    have parents := generated.frame.2.2.2
    rw [(Scope.child_parents entered).1] at parents
    exact (Scope.leave_extends parents).self.env
  | argsNil g => rfl
  | argsCons allocated first second ih₁ ih₂ =>
    obtain ⟨-, count, env⟩ := Scope.push_registerAt allocated
    have firstCount := first.frame.1
    rw [ih₂, ih₁, firstCount, count, env]
    simp only [Piece.bindings, Piece.leak, argBindings]
    rw [Nat.add_assoc, Bindings.env_append, Bindings.env_raise, Bindings.env_raise, List.append_assoc]
  | blockNil g out => rfl
  | exprsNil g out => rfl
  | blockCons first second ih₁ ih₂ | exprsCons first second ih₁ ih₂ =>
    rw [ih₂, ih₁, first.frame.1]
    exact Bindings.env_sequence ..

private theorem bindArgs_env {params : List Name} {varCount total : UInt8} {env result : Env}
    (bound : bindArgs params varCount env = .ok (total, result)) :
    result = Bindings.env (params.zipIdx 1) varCount.toNat ++ env := by
  induction params generalizing varCount env with
  | nil =>
    cases bound
    rfl
  | cons param params ih =>
    obtain ⟨next, added, rest⟩ := Except.bind_eq_ok.mp bound
    have position : next.toNat = varCount.toNat + 1 := checkedAdd_ok added
    have shifted : params.zipIdx 2 = Bindings.raise (params.zipIdx 1) 1 := List.zipIdx_succ ..
    have register : VarRef.register next = registerAt (varCount.toNat + 1) := by
      rw [registerAt, ← position, UInt8.ofNat_toNat]
    rw [ih rest, List.zipIdx_cons, position, shifted, Bindings.env_cons, Bindings.env_raise, register, List.append_assoc]
    rfl

private theorem FnGenerator.env_new {self : FnGenerator} {moduleName functionName : Name} {params : List Name}
    (created : FnGenerator.new moduleName functionName params = .ok self) :
    self.env = (paramBindings params).env 0 := by
  simp only [FnGenerator.new, Except.bind_eq_ok, Prod.exists, Except.pure_eq_ok] at created
  obtain ⟨total, env, bound, rfl⟩ := created
  exact (bindArgs_env bound).trans (List.append_nil _)

end Environments

section Instructions

variable {g g' : Scope} {out : VarRef} {e : Expr} {es : List Expr} {locations : List VarRef} {instr : Instruction}
  {r : UInt8}

/-- An instruction that leaves control to its layout, or to nobody. -/
theorem Passes.one (plain : instr.isControl = false) : Passes r [instr] (decide (.register r ∈ instr.reads))
    (!instr.ends && decide (instr.writes ≠ some (.register r))) := by
  cases instr
  case test | jmp | anonFn => contradiction
  case exit | «return» => exact .stops fun _ => rfl
  all_goals exact .straight fun _ => rfl

/-- An instruction that writes its output register. -/
theorem Passes.writing (plain : instr.isControl = false) (writes : instr.writes = some out) :
    Passes r [instr] (decide (.register r ∈ instr.reads)) (decide (out ≠ .register r)) := by
  have passes := @Passes.one instr r plain
  have goes : instr.ends = false := by
    cases instr
    case exit | «return» => contradiction
    all_goals rfl
  simpa only [goes, writes, Bool.not_false, Bool.true_and, ne_eq, Option.some_inj] using passes

private theorem Scope.searched_register (g : Scope) (x : Name) :
    (g.searchEnv x).1 = some (.register r) ↔ g.self.env.lookup x = some (.register r) := by
  rw [(g.searchEnv_eq x).1]
  constructor
  · exact fun found => searchChain_register found
  · intro found
    have binds : Binds g.generators 0 x (.register r) := found
    rw [searchChain_of_binds binds]

private theorem leaf_passes (r : UInt8) (n : ℕ) (single : leafInstr g out e = some (instr, g')) :
    Passes r [instr] (e.needs r out n g.self.env) (e.spares r out n) := by
  have passes := @Passes.writing out instr r (leafInstr_plain single) (leafInstr_writes single).2.2
  unfold leafInstr at single
  split at single
  · obtain ⟨val, -, same⟩ := Option.map_eq_some_iff.mp single
    cases same
    exact passes
  · next name =>
    have searched := @Scope.searched_register r g name
    split at single
    · next reg g₁ found =>
      cases single
      rw [found, Option.some_inj, eq_comm] at searched
      rw [Expr.needs, decide_eq_decide.mpr searched.symm]
      simp only [Instruction.reads, Instruction.operands, Instruction.sources, List.nil_append, List.mem_singleton]
        at passes
      exact passes
    · contradiction
  all_goals first | contradiction | (cases single; exact passes)

/-- The last instruction of an operation reads a register. -/
def Expr.lastNeeds (r : UInt8) (out : VarRef) (locations : List VarRef) (env : Env) : Expr → Bool
  | .apply module name _ => callNeeds r module name out locations env
  | _ => decide (.register r ∈ locations)

/-- The last instruction of an operation goes on and has not written a register. -/
def Expr.lastSpares (r : UInt8) (out : VarRef) (locations : List VarRef) : Expr → Bool
  | .apply _ name _ => callSpares r name out locations
  | _ => decide (out ≠ .register r)

private theorem operation_needs (operands : e.operandExprs = some es) (n : ℕ) (env : Env) :
    e.needs r out n env = (argumentsNeed r es n env || argumentsSpare r es n &&
      e.lastNeeds r out (registersFrom (n + leaks es + 1) es.length) ((argBindings es).env n ++ env)) := by
  cases e <;> simp only [Expr.operandExprs, reduceCtorEq] at operands
  case apply module name args =>
    split at operands
    · contradiction
    · next notShort =>
      cases operands
      rw [Expr.needs.eq_def]
      simp only [notShort, if_false, Expr.lastNeeds]
  all_goals
    cases operands
    rfl

private theorem operation_spares (operands : e.operandExprs = some es) (n : ℕ) :
    e.spares r out n = (argumentsSpare r es n && e.lastSpares r out (registersFrom (n + leaks es + 1) es.length)) := by
  cases e <;> simp only [Expr.operandExprs, reduceCtorEq] at operands
  case apply module name args =>
    split at operands
    · contradiction
    · next notShort =>
      cases operands
      rw [Expr.spares.eq_def]
      simp only [notShort, if_false, Expr.lastSpares]
  all_goals
    cases operands
    rfl

/-- A call of a function that is not built in reads its operands and, where it has it in a register, the function. -/
private theorem genericApply_reads (g : Scope) (module : Option Name) (name : Name) (retLoc : VarRef) (args : List VarRef)
    (arity : UInt8) : .register r ∈ (g.genericApply module name retLoc args arity).1.reads ↔
      .register r ∈ args ∨ module.isNone ∧ g.self.env.lookup name = some (.register r) := by
  rw [← g.searched_register]
  unfold Scope.genericApply
  generalize g.searchEnv name = found
  rcases found with ⟨_ | varRef, g₁⟩ <;> cases module <;>
    simp [Instruction.reads, Instruction.operands, Instruction.sources, eq_comm]

/-- The last instruction of an operation. -/
private theorem finishOperation_passes (operands : e.operandExprs = some es)
    (finished : finishOperation g out locations e = .ok (instr, g')) :
    Passes r [instr] (e.lastNeeds r out locations g.self.env) (e.lastSpares r out locations) := by
  have plain := finishOperation_plain finished
  cases e <;> simp only [Expr.operandExprs, reduceCtorEq] at operands
  case apply module name args =>
    rw [finishOperation, Scope.applyOp] at finished
    rw [Expr.lastNeeds, Expr.lastSpares, callNeeds, callSpares]
    split at finished
    · next emitter found =>
      obtain ⟨result, emitted, same⟩ := Except.bind_eq_ok.mp finished
      cases same
      simp only [found, emitted]
      exact .one plain
    · next unknown =>
      have reads := @genericApply_reads r g module name out locations (UInt8.ofNat args.length)
      have writes := (g.genericApply_instr module name out locations (UInt8.ofNat args.length)).2
      have called : g.genericApply module name out locations (UInt8.ofNat args.length) = (instr, g') :=
        Except.ok.inj finished
      rw [called] at reads writes
      have passes := @Passes.writing out instr r plain writes
      simpa only [unknown, decide_eq_decide.mpr reads, Bool.decide_or, Bool.decide_and, Bool.decide_eq_true] using passes
  all_goals
    cases finished
    have passes := @Passes.writing out _ r plain rfl
    simp only [Instruction.reads, Instruction.operands, Instruction.sources, List.append_nil] at passes
    exact passes

/-- A closure captures the registers of the names that its body looks up and that it has not for parameters. -/
private theorem captured_register {child child' : Scope} {params : List Name} {body : List Expr} {code : Bytecode}
    {trace : GenTrace} {r : UInt8} (entered : g.child params = .ok child)
    (run : Generates child (.block out body) code child' trace) : .register r ∈ child'.self.upvals ↔
      ∃ x ∈ exprNames true body, x ∉ params ∧ g.self.env.lookup x = some (.register r) := by
  obtain ⟨outer, created⟩ := Scope.child_parents entered
  have empty := (FnGenerator.lookup_new created).2.1
  have captures : Captures child (exprNames true body) child' := run.captures
  have past (x : Name) (ref : VarRef) : Binds child.generators 1 x ref ↔
      x ∉ params ∧ g.self.env.lookup x = some ref := by
    rw [Scope.generators, Binds, FnGenerator.lookup_new_none created, outer]
    rfl
  constructor
  · intro member
    obtain old | ⟨x, named, binds⟩ := captures.sources 0 r member
    · change _ ∈ child.self.upvals at old
      rw [empty] at old
      exact absurd old List.not_mem_nil
    · exact ⟨x, named, (past x _).mp binds⟩
  · rintro ⟨x, named, found⟩
    exact captures.captured 0 x named _ ((past x _).mpr found)

end Instructions

/-- The code of a piece does to the paths through it what the source says. -/
theorem Generates.passes {g g' : Scope} {piece : Piece} {code : Bytecode} {trace : GenTrace}
    (run : Generates g piece code g' trace) (r : UInt8) :
    Passes r code (piece.needs r g.self.varCount.toNat g.self.env) (piece.spares r g.self.varCount.toNat) := by
  induction run with
  | leaf single => exact leaf_passes r _ single
  | @shortCircuit g g₁ g₂ out module name left right rest leftCode rightCode thenBranch elseBranch code jumps leftTrace
      rightTrace named first second sides joined tested ih₁ ih₂ =>
    rw [first.env_eq, first.frame.1] at ih₂
    rw [Piece.needs, Piece.spares, Expr.needs.eq_def, Expr.spares.eq_def]
    simp only [named, if_true]
    obtain ⟨rfl, rfl⟩ | ⟨rfl, rfl⟩ := sides
    · have both := Passes.branch joined ih₁ ih₂ (.nil r)
      rwa [Bool.or_false, Bool.or_true, Bool.and_true] at both
    · have both := Passes.branch joined ih₁ (.nil r) ih₂
      rwa [Bool.or_false, Bool.true_or, Bool.and_true] at both
  | @operation g g₁ g₂ g₃ out e es res argsTrace locations outputs states instr operands evaluated generated popped
      snapshots placed finished ih =>
    have count : g₁.self.varCount.toNat = g.self.varCount.toNat + (es.length + leaks es) := generated.frame.1
    have located := argLocations_registers popped
    obtain ⟨varCount, total, rfl⟩ := Scope.argLocations_ok popped
    have last := finishOperation_passes (r := r) operands finished
    have lowest : varCount.toNat = g.self.varCount.toNat + leaks es := by omega
    have env : g₁.self.env = (argBindings es).env g.self.varCount.toNat ++ g.self.env := generated.env_eq
    simp only [located, lowest, env] at last
    rw [Piece.needs, Piece.spares, operation_needs operands, operation_spares operands]
    exact ih.append last
  | @branch g g₁ g₂ g₃ g₄ out conditionOut condition body elseBody thenBranch elseBranch res code jumps thenTrace
      elseTrace conditionTrace first second allocated third joined tested ih₁ ih₂ ih₃ =>
    obtain ⟨rfl, count, env⟩ := Scope.push_registerAt allocated
    have thenCount : g₁.self.varCount.toNat = g.self.varCount.toNat + leaks body := first.frame.1
    have elseCount : g₂.self.varCount.toNat = g₁.self.varCount.toNat + leaks elseBody := second.frame.1
    rw [first.env_eq, thenCount] at ih₂
    rw [count, env, second.env_eq, first.env_eq, elseCount, thenCount] at ih₃
    rw [elseCount, thenCount] at joined
    exact .branch joined ih₃ ih₁ ih₂
  | binding fresh allocated generated ih =>
    obtain ⟨rfl, count, env⟩ := Scope.push_registerAt allocated
    rw [count, env] at ih
    exact ih
  | @closure g child child' out params body code bodyTrace size jump entered generated sized jumped ih =>
    have passes := @Passes.closure r (code ++ [.return]) out jump (UInt8.ofNat params.length) size child'.self.upvals
      sized jumped
    have captured : decide (.register r ∈ child'.self.upvals) =
        ((Expr.anonFn params body).names true).any fun x => decide (g.self.env.lookup x = some (.register r)) := by
      rw [Bool.eq_iff_iff, decide_eq_true_eq, captured_register entered generated]
      simp [Expr.names]
    rw [captured] at passes
    exact passes
  | argsNil g => exact .nil r
  | argsCons allocated first second ih₁ ih₂ =>
    obtain ⟨rfl, count, env⟩ := Scope.push_registerAt allocated
    rw [first.env_eq, first.frame.1, count, env] at ih₂
    rw [count, env] at ih₁
    exact ih₁.append ih₂
  | blockNil g out => exact Passes.writing rfl rfl
  | exprsNil g out => exact .nil r
  | blockCons first second ih₁ ih₂ | exprsCons first second ih₁ ih₂ =>
    rw [first.env_eq, first.frame.1] at ih₂
    exact ih₁.append ih₂

section Functions

variable {moduleName functionName : Name} {params : List Name} {body : List Expr} {self : FnGenerator}
  {parents : List FnGenerator} {code : Bytecode} {g' : Scope}

private theorem writesFirst_iff_exposed {code : Bytecode} {position : ℕ} : (∀ visited, Path code position visited →
    WritesFirst params visited) ↔ ∀ r, ¬ IsParameter params r → ¬ Exposed code r position := by
  simp only [exposed_iff_path]
  constructor
  · rintro first r local' ⟨earlier, instr, path, read, unwritten⟩
    obtain parameter | ⟨before, member, written⟩ := first _ path earlier instr [] rfl r read
    · exact local' parameter
    · exact unwritten before member written
  · rintro none visited path earlier instr later rfl r read
    by_contra neither
    obtain ⟨local', unwritten⟩ := not_or.mp neither
    have cut : earlier ++ instr :: later = (earlier ++ [instr]) ++ later := by simp
    rw [cut] at path
    exact none r local' ⟨earlier, instr, path.cut (by simp), read, fun before member written =>
      unwritten ⟨before, member, written⟩⟩

/-- The code of a body with the `Return` behind it, wherever it stands. -/
private theorem body_exposed (created : FnGenerator.new moduleName functionName params = .ok self)
    (generated : generateBlock ⟨self, parents⟩ (.register 0) body = .ok (code, g')) (before after : Bytecode)
    (r : UInt8) : Exposed (before ++ code ++ [.return] ++ after) r (spanOf before) ↔
      blockNeeds r body (.register 0) params.length ((paramBindings params).env 0) = true ∨
        blockSpares r body (.register 0) params.length = true ∧ r = 0 := by
  obtain ⟨trace, -, run⟩ := generates_block (fun e _ => traced e) generated
  have passes := run.passes r before ([.return] ++ after)
  have count : self.varCount.toNat = params.length := (FnGenerator.lookup_new created).1
  have last : Exposed (before ++ code ++ .return :: after) r (spanOf (before ++ code)) ↔ r = 0 := by
    rw [exposed_instr]
    simp [Instruction.reads, Instruction.targets]
  rw [List.append_assoc (before ++ code), passes]
  simp only [List.singleton_append, last, Piece.needs, Piece.spares, count, FnGenerator.env_new created]

/-- Whatever function the body is of and wherever its code stands, every register that is read on a path through
it is a parameter or written before, register 0 at the `Return` included, exactly when the body assigns what it
uses and its result. -/
theorem writesFirst_iff_assigns (created : FnGenerator.new moduleName functionName params = .ok self)
    (generated : generateBlock ⟨self, parents⟩ (.register 0) body = .ok (code, g')) (before after : Bytecode) :
    (∀ visited, Path (before ++ code ++ [.return] ++ after) (spanOf before) visited → WritesFirst params visited) ↔
      Assigns params body := by
  rw [writesFirst_iff_exposed]
  simp only [body_exposed created generated]
  constructor
  · intro covered
    refine ⟨fun r local' => Bool.eq_false_iff.mpr fun needs => covered r local' (.inl needs), ?_⟩
    refine Bool.eq_false_iff.mpr fun spares => covered 0 (fun parameter => ?_) (.inr ⟨spares, rfl⟩)
    exact absurd parameter.1 (by decide)
  · rintro assigns r local' (needs | ⟨spares, rfl⟩)
    · exact Bool.eq_false_iff.mp (assigns.uses r local') needs
    · exact Bool.eq_false_iff.mp assigns.result spares

end Functions

/-- The body of `fn f(x) { let y = if x { 1 } else { 2 } y }`. -/
def chosenBody : List Expr :=
  [.let (bytes "y") (.if (.ident (bytes "x")) [.int (bytes "1")] [.int (bytes "2")]), .ident (bytes "y")]

theorem writesFirst_chosen : ∃ code, (∃ g', generateBlock ⟨⟨1, bytes "M", bytes "f", [(bytes "x", .register 1)], []⟩, []⟩
      (.register 0) chosenBody = .ok (code, g')) ∧
    ∀ visited, Path ([] ++ code ++ [.return] ++ []) 0 visited → WritesFirst [bytes "x"] visited := by
  have created : FnGenerator.new (bytes "M") (bytes "f") [bytes "x"] =
    .ok ⟨1, bytes "M", bytes "f", [(bytes "x", .register 1)], []⟩ := rfl
  obtain ⟨code, g', generated⟩ : ∃ code g', generateBlock
      ⟨⟨1, bytes "M", bytes "f", [(bytes "x", .register 1)], []⟩, []⟩ (.register 0) chosenBody = .ok (code, g') :=
    ⟨_, _, rfl⟩
  refine ⟨code, ⟨g', generated⟩, (writesFirst_iff_assigns created generated [] []).mpr ⟨fun r local' => ?_, by decide⟩⟩
  have other : r ≠ 1 := by
    rintro rfl
    exact local' ⟨by decide, by decide⟩
  simp only [chosenBody, List.length_cons, List.length_nil, zero_add, blockNeeds, Expr.needs, Nat.reduceAdd,
    Expr.spares, ne_eq, decide_not, exprsNeed, Bool.and_false, Bool.or_self, Bool.or_false, Bool.not_and_self,
    VarRef.register.injEq, Bool.or_eq_false_iff, decide_eq_false_iff_not, Bool.and_eq_false_imp, Bool.and_eq_true,
    Bool.not_eq_eq_eq_not, Bool.not_true, Bool.or_eq_true, and_imp]
  refine ⟨fun found => ?_, fun _ spares found => ?_⟩
  · have same : some (VarRef.register 1) = some (.register r) := found
    cases same
    exact other rfl
  · have same : some (VarRef.register 2) = some (.register r) := found
    cases same
    exact absurd spares (by decide)

/-- The body of `fn f() { let x = 1 }`. -/
def bindingBody : List Expr := [.let (bytes "x") (.int (bytes "1"))]

/-- A `let` writes the register of its variable and not its output register, so the `Return` behind it hands over a
register that nobody has written. -/
theorem writesFirst_fails : ¬ ∀ moduleName functionName params body self parents code g',
    FnGenerator.new moduleName functionName params = .ok self →
    generateBlock ⟨self, parents⟩ (.register 0) body = .ok (code, g') →
    ∀ visited, Path (code ++ [.return]) 0 visited → WritesFirst params visited := by
  intro claimed
  have created : FnGenerator.new (bytes "M") (bytes "f") [] = .ok ⟨0, bytes "M", bytes "f", [], []⟩ := rfl
  obtain ⟨code, g', generated⟩ : ∃ code g', generateBlock ⟨⟨0, bytes "M", bytes "f", [], []⟩, []⟩ (.register 0)
      bindingBody = .ok (code, g') := ⟨_, _, rfl⟩
  have exposed := body_exposed created generated [] [] 0
  rw [List.append_nil, List.nil_append] at exposed
  refine writesFirst_iff_exposed.mp (claimed _ _ _ _ _ _ _ _ created generated) 0 ?_ (exposed.mpr (.inr (by decide)))
  exact fun parameter => absurd parameter.1 (by decide)

end Owl.Compiler
