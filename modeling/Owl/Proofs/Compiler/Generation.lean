import Owl.ToMathlib.Except
import Owl.Model.Compiler.Trace
import Mathlib.Tactic.Cases

/-! # Successful generation as a relation

`generateExpr` and its three list loops are one mutual recursion over a monad. `Generates` is the
relation of their successful runs, with the trace of each run, so that a property of generated code
is one induction with a case for each way in which the source produces code.
-/

namespace Owl.Compiler

/-- Induction over expressions; a list of subexpressions offers the hypothesis of each member. -/
@[elab_as_elim, induction_eliminator]
theorem Expr.inductionOn {motive : Expr → Prop}
    (int : ∀ value, motive (.int value)) (true : motive .true) (false : motive .false)
    (nil : motive .nil) (let_ : ∀ left right, motive right → motive (.let left right))
    (ident : ∀ name, motive (.ident name))
    (apply : ∀ module name args, (∀ arg ∈ args, motive arg) → motive (.apply module name args))
    (if_ : ∀ condition body elseBody, motive condition → (∀ e ∈ body, motive e) →
      (∀ e ∈ elseBody, motive e) → motive (.if condition body elseBody))
    (tuple : ∀ elems, (∀ e ∈ elems, motive e) → motive (.tuple elems))
    (list : ∀ elems, (∀ e ∈ elems, motive e) → motive (.list elems))
    (str : ∀ value, motive (.str value))
    (capture : ∀ module name arity, motive (.capture module name arity))
    (anonFn : ∀ args body, (∀ e ∈ body, motive e) → motive (.anonFn args body))
    (expr : Expr) : motive expr :=
  Expr.rec (motive_2 := fun exprs => ∀ e ∈ exprs, motive e)
    int true false nil let_ ident apply if_ tuple list str capture anonFn
    (fun _ member => absurd member List.not_mem_nil)
    (fun _ _ head tail _ member => (List.mem_cons.mp member).elim (· ▸ head) (tail _)) expr

/-- The two operators that generate both operands into the output register itself. -/
def IsShortCircuit (name : Name) : Prop := name = bytes "&&" ∨ name = bytes "||"

instance (name : Name) : Decidable (IsShortCircuit name) := inferInstanceAs (Decidable (_ ∨ _))

/-- The one instruction of an expression without subexpressions. -/
def leafInstr (g : Scope) (out : VarRef) : Expr → Option (Instruction × Scope)
  | .int value => (parseU16 value).map fun val => (.storeInt out val, g)
  | .ident name =>
      match g.searchEnv name with
      | (some reg, g) => some (.mov out reg, g)
      | (none, _) => none
  | .true => some (.storeTrue out, g)
  | .false => some (.storeFalse out, g)
  | .nil => some (.storeNil out, g)
  | .str value => some (.loadString out value, g)
  | .capture module name arity =>
      some (.capture out (qualifiedName (module.getD g.self.moduleName) name) arity, g)
  | _ => none

/-- The expressions that an operation, call, tuple or list generates into registers. -/
def Expr.operandExprs : Expr → Option (List Expr)
  | .apply _ name args => if IsShortCircuit name then none else some args
  | .tuple elems => some elems
  | .list elems => some elems
  | _ => none

/-- The instruction that ends an operation, given its operand registers. -/
def finishOperation (g : Scope) (out : VarRef) (locations : List VarRef) :
    Expr → Except Panic (Instruction × Scope)
  | .apply module name args => g.applyOp module name out locations (UInt8.ofNat args.length)
  | .tuple elems => .ok (.tuple out (UInt8.ofNat elems.length) locations, g)
  | .list elems => .ok (.list out (UInt8.ofNat elems.length) locations, g)
  | _ => .error .indexOutOfBounds

/-- A piece of syntax consumed by one of the four generation loops. -/
inductive Piece where
  | expr (out : VarRef) (expr : Expr)
  | args (args : List Expr)
  | block (out : VarRef) (exprs : List Expr)
  | exprs (out : VarRef) (exprs : List Expr)

inductive Generates : Scope → Piece → Bytecode → Scope → GenTrace → Prop
  | leaf {g g' : Scope} {out : VarRef} {e : Expr} {instr : Instruction}
      (single : leafInstr g out e = some (instr, g')) :
      Generates g (.expr out e) [instr] g' (emits [instr])
  | shortCircuit {g g₁ g₂ : Scope} {out : VarRef} {module : Option Name} {name : Name}
      {left right : Expr} {rest : List Expr} {leftCode rightCode thenBranch elseBranch code jumps}
      {leftTrace rightTrace : GenTrace} (named : IsShortCircuit name)
      (first : Generates g (.expr out left) leftCode g₁ leftTrace)
      (second : Generates g₁ (.expr out right) rightCode g₂ rightTrace)
      (sides : thenBranch = rightCode ∧ elseBranch = [] ∨ thenBranch = [] ∧ elseBranch = rightCode)
      (joined : genBranchInto leftCode out thenBranch elseBranch = .ok code)
      (tested : branchInstrs out thenBranch elseBranch = .ok jumps) :
      Generates g (.expr out (.apply module name (left :: right :: rest))) code g₂
        (leftTrace ++ rightTrace ++ emits jumps)
  | operation {g g₁ g₂ g₃ : Scope} {out : VarRef} {e : Expr} {es : List Expr} {res : Bytecode}
      {argsTrace : GenTrace} {locations outputs : List VarRef} {states : List FnGenerator}
      {instr : Instruction} (operands : e.operandExprs = some es)
      (evaluated : generateArgs g es = .ok (res, g₁))
      (generated : Generates g (.args es) res g₁ argsTrace)
      (popped : g₁.argLocations es = .ok (locations, g₂))
      (snapshots : g₁.popStates es.length = .ok states) (placed : argOutputs g es = .ok outputs)
      (finished : finishOperation g₂ out locations e = .ok (instr, g₃)) :
      Generates g (.expr out e) (res ++ [instr]) g₃
        (argsTrace ++ .ofEvents (states.map .state ++ [.emit instr outputs]))
  | branch {g g₁ g₂ g₃ g₄ : Scope} {out conditionOut : VarRef} {condition : Expr}
      {body elseBody : List Expr} {thenBranch elseBranch res code jumps : Bytecode}
      {thenTrace elseTrace conditionTrace : GenTrace}
      (first : Generates g (.block out body) thenBranch g₁ thenTrace)
      (second : Generates g₁ (.block out elseBody) elseBranch g₂ elseTrace)
      (allocated : g₂.push = .ok (conditionOut, g₃))
      (third : Generates g₃ (.expr conditionOut condition) res g₄ conditionTrace)
      (joined : genBranchInto res conditionOut thenBranch elseBranch = .ok code)
      (tested : branchInstrs conditionOut thenBranch elseBranch = .ok jumps) :
      Generates g (.expr out (.if condition body elseBody)) code g₄
        (thenTrace ++ elseTrace ++ .ofEvents [.state g₃.self] ++ conditionTrace ++ emits jumps)
  | binding {g g₁ g₂ : Scope} {out var : VarRef} {left : Name} {right : Expr} {code : Bytecode}
      {rightTrace : GenTrace} (fresh : g.identifierExistsInScope left = false)
      (allocated : g.push = .ok (var, g₁))
      (generated : Generates g₁ (.expr var right) code g₂ rightTrace) :
      Generates g (.expr out (.let left right)) code (g₂.insertEnv left var)
        (.ofEvents [.state g₁.self] ++ rightTrace ++
          .ofEvents [.state (g₂.insertEnv left var).self, .bind left var])
  | closure {g child child' : Scope} {out : VarRef} {params : List Name} {body : List Expr}
      {code : Bytecode} {bodyTrace : GenTrace} {size jump : UInt8}
      (entered : g.child params = .ok child)
      (generated : Generates child (.block (.register 0) body) code child' bodyTrace)
      (sized : byteSizeOf (code ++ [.return]) = .ok size) (jumped : checkedAdd size 1 = .ok jump) :
      Generates g (.expr out (.anonFn params body))
        (.anonFn out jump (UInt8.ofNat params.length) child'.self.upvals :: (code ++ [.return]))
        (child'.leave g)
        (emits [.anonFn out jump (UInt8.ofNat params.length) child'.self.upvals] ++
          ⟨[], functionEvents child.self bodyTrace.own :: bodyTrace.closures⟩)
  | argsNil (g : Scope) : Generates g (.args []) [] g (.ofEvents [])
  | argsCons {g g₁ g₂ g₃ : Scope} {argOut : VarRef} {e : Expr} {es : List Expr}
      {code rest : Bytecode} {argTrace restTrace : GenTrace}
      (allocated : g.push = .ok (argOut, g₁))
      (first : Generates g₁ (.expr argOut e) code g₂ argTrace)
      (second : Generates g₂ (.args es) rest g₃ restTrace) :
      Generates g (.args (e :: es)) (code ++ rest) g₃
        (.ofEvents [.state g₁.self] ++ argTrace ++ restTrace)
  | blockNil (g : Scope) (out : VarRef) :
      Generates g (.block out []) [.storeNil out] g (emits [.storeNil out])
  | blockCons {g g₁ g₂ : Scope} {out : VarRef} {e : Expr} {es : List Expr} {code rest : Bytecode}
      {exprTrace restTrace : GenTrace} (first : Generates g (.expr out e) code g₁ exprTrace)
      (second : Generates g₁ (.exprs out es) rest g₂ restTrace) :
      Generates g (.block out (e :: es)) (code ++ rest) g₂ (exprTrace ++ restTrace)
  | exprsNil (g : Scope) (out : VarRef) : Generates g (.exprs out []) [] g (.ofEvents [])
  | exprsCons {g g₁ g₂ : Scope} {out : VarRef} {e : Expr} {es : List Expr} {code rest : Bytecode}
      {exprTrace restTrace : GenTrace} (first : Generates g (.expr out e) code g₁ exprTrace)
      (second : Generates g₁ (.exprs out es) rest g₂ restTrace) :
      Generates g (.exprs out (e :: es)) (code ++ rest) g₂ (exprTrace ++ restTrace)

theorem genBranchInto_instrs {code thenBranch elseBranch result : Bytecode} {reg : VarRef}
    (joined : genBranchInto code reg thenBranch elseBranch = .ok result) :
    ∃ test jumps, branchInstrs reg thenBranch elseBranch = .ok (test :: jumps) ∧
      result = code ++ [test] ++ (elseBranch ++ jumps) ++ thenBranch := by
  obtain ⟨thenSize, sized, joined⟩ := Except.bind_eq_ok.mp joined
  by_cases nonempty : 0 < thenSize
  · simp only [if_pos nonempty, Except.bind_eq_ok, Except.pure_eq_ok] at joined
    obtain ⟨leap, jumped, closed, rfl, elseSize, elseSized, skip, skipped, rfl⟩ := joined
    refine ⟨.test reg skip, [.jmp leap], ?_, by simp⟩
    refine Except.bind_eq_ok.mpr ⟨thenSize, sized, ?_⟩
    simp only [if_pos nonempty, Except.bind_eq_ok, Except.pure_eq_ok]
    exact ⟨leap, jumped, _, rfl, elseSize, elseSized, skip, skipped, rfl⟩
  · simp only [if_neg nonempty, Except.bind_eq_ok, Except.pure_eq_ok] at joined
    obtain ⟨closed, rfl, elseSize, elseSized, skip, skipped, rfl⟩ := joined
    refine ⟨.test reg skip, [], ?_, by simp⟩
    refine Except.bind_eq_ok.mpr ⟨thenSize, sized, ?_⟩
    simp only [if_neg nonempty, Except.bind_eq_ok, Except.pure_eq_ok]
    exact ⟨_, rfl, elseSize, by simpa using elseSized, skip, skipped, rfl⟩

private theorem argOutputs_ok {es : List Expr} {g g' : Scope} {code : Bytecode}
    (generated : generateArgs g es = .ok (code, g')) : ∃ outputs, argOutputs g es = .ok outputs := by
  induction es generalizing g g' code with
  | nil => exact ⟨[], rfl⟩
  | cons e es ih =>
    simp only [generateArgs, Except.bind_eq_ok, Prod.exists, Except.pure_eq_ok] at generated
    obtain ⟨argOut, g₁, allocated, first, g₂, head, rest, g₃, tail, -⟩ := generated
    obtain ⟨outputs, placed⟩ := ih tail
    exact ⟨argOut :: outputs, by simp [argOutputs, allocated, head, placed, Except.ok_bind, pure,
      Except.pure]⟩

private theorem popStates_ok {n : ℕ} {g g' : Scope} {regs : List VarRef}
    (popped : g.popEach n = .ok (regs, g')) :
    ∃ states, g.popStates n = .ok states := by
  induction n generalizing g g' regs with
  | zero => exact ⟨[], rfl⟩
  | succ n ih =>
    simp only [Scope.popEach, Except.bind_eq_ok, Prod.exists] at popped
    obtain ⟨reg, g₁, one, rest, g₂, others, -⟩ := popped
    obtain ⟨states, later⟩ := ih others
    exact ⟨g₁.self :: states, by simp [Scope.popStates, one, later, Except.ok_bind, pure,
      Except.pure]⟩

/-- A successful run has a trace, and the relation holds of the run with its trace. -/
def Traced (e : Expr) : Prop :=
  ∀ g out code g', generateExpr g out e = .ok (code, g') →
    ∃ trace, traceExpr g out e = .ok trace ∧ Generates g (.expr out e) code g' trace

section Lists

variable {es : List Expr} {g g' : Scope} {code : Bytecode}

theorem generates_args (traced : ∀ e ∈ es, Traced e) (success : generateArgs g es = .ok (code, g')) :
    ∃ trace, traceArgs g es = .ok trace ∧ Generates g (.args es) code g' trace := by
  induction es generalizing g g' code with
  | nil =>
    cases success
    exact ⟨_, rfl, .argsNil _⟩
  | cons e es ih =>
    simp only [generateArgs, Except.bind_eq_ok, Prod.exists, Except.pure_eq_ok, Prod.mk.injEq]
      at success
    obtain ⟨argOut, g₁, allocated, first, g₂, head, rest, g₃, tail, rfl, rfl⟩ := success
    obtain ⟨argTrace, argTraced, argRun⟩ := traced e List.mem_cons_self _ _ _ _ head
    obtain ⟨restTrace, restTraced, restRun⟩ := ih (fun e' m => traced e' (List.mem_cons_of_mem _ m)) tail
    refine ⟨_, ?_, .argsCons allocated argRun restRun⟩
    simp [traceArgs, allocated, head, argTraced, restTraced, Except.ok_bind, pure, Except.pure]

theorem generates_exprs {out : VarRef} (traced : ∀ e ∈ es, Traced e)
    (success : generateExprs g out es = .ok (code, g')) :
    ∃ trace, traceExprs g out es = .ok trace ∧ Generates g (.exprs out es) code g' trace := by
  induction es generalizing g g' code with
  | nil =>
    cases success
    exact ⟨_, rfl, .exprsNil _ _⟩
  | cons e es ih =>
    simp only [generateExprs, Except.bind_eq_ok, Prod.exists, Except.pure_eq_ok, Prod.mk.injEq]
      at success
    obtain ⟨first, g₁, head, rest, g₂, tail, rfl, rfl⟩ := success
    obtain ⟨exprTrace, exprTraced, exprRun⟩ := traced e List.mem_cons_self _ _ _ _ head
    obtain ⟨restTrace, restTraced, restRun⟩ := ih (fun e' m => traced e' (List.mem_cons_of_mem _ m)) tail
    refine ⟨_, ?_, .exprsCons exprRun restRun⟩
    simp [traceExprs, head, exprTraced, restTraced, Except.ok_bind, pure, Except.pure]

theorem generates_block {out : VarRef} (traced : ∀ e ∈ es, Traced e)
    (success : generateBlock g out es = .ok (code, g')) :
    ∃ trace, traceBlock g out es = .ok trace ∧ Generates g (.block out es) code g' trace := by
  cases es with
  | nil =>
    cases success
    exact ⟨_, rfl, .blockNil _ _⟩
  | cons e es =>
    simp only [generateBlock, Except.bind_eq_ok, Prod.exists, Except.pure_eq_ok, Prod.mk.injEq]
      at success
    obtain ⟨first, g₁, head, rest, g₂, tail, rfl, rfl⟩ := success
    obtain ⟨exprTrace, exprTraced, exprRun⟩ := traced e List.mem_cons_self _ _ _ _ head
    obtain ⟨restTrace, restTraced, restRun⟩ :=
      generates_exprs (fun e' m => traced e' (List.mem_cons_of_mem _ m)) tail
    refine ⟨_, ?_, .blockCons exprRun restRun⟩
    simp [traceBlock, head, exprTraced, restTraced, Except.ok_bind, pure, Except.pure]

end Lists

theorem traced_leaf {e : Expr} (generate : ∀ g out code g', generateExpr g out e = .ok (code, g') →
      ∃ instr, code = [instr] ∧ leafInstr g out e = some (instr, g'))
    (trace : ∀ g out, traceExpr g out e = do
      let (code, _) ← generateExpr g out e
      return emits code) : Traced e := by
  intro g out code g' success
  obtain ⟨instr, rfl, single⟩ := generate g out code g' success
  exact ⟨emits [instr], by rw [trace, success]; rfl, .leaf single⟩

theorem traced_operation {e : Expr} {es : List Expr} (operands : e.operandExprs = some es)
    (traced : ∀ e ∈ es, Traced e)
    (generate : ∀ g out, generateExpr g out e = do
      let (res, g) ← generateArgs g es
      let (locations, g) ← g.argLocations es
      let (instr, g) ← finishOperation g out locations e
      return (res ++ [instr], g))
    (trace : ∀ g out, traceExpr g out e = do
      let argsTrace ← traceArgs g es
      let (_, popped) ← generateArgs g es
      let (locations, applied) ← popped.argLocations es
      let (instr, _) ← finishOperation applied out locations e
      return argsTrace ++ (← operationTrace g popped es instr)) : Traced e := by
  intro g out code g' success
  simp only [generate, Except.bind_eq_ok, Prod.exists, Except.pure_eq_ok, Prod.mk.injEq] at success
  obtain ⟨res, g₁, evaluated, locations, g₂, popped, instr, g₃, finished, rfl, rfl⟩ := success
  obtain ⟨argsTrace, argsTraced, argsRun⟩ := generates_args traced evaluated
  obtain ⟨outputs, placed⟩ := argOutputs_ok evaluated
  obtain ⟨states, snapshots⟩ : ∃ states, g₁.popStates es.length = .ok states := by
    simp only [Scope.argLocations, Except.bind_eq_ok, Prod.exists] at popped
    obtain ⟨regs, g₄, each, -⟩ := popped
    exact popStates_ok each
  refine ⟨_, ?_, .operation operands evaluated argsRun popped snapshots placed finished⟩
  simp [trace, argsTraced, evaluated, popped, finished, operationTrace, snapshots, placed,
    Except.ok_bind, pure, Except.pure]

private theorem traced_shortCircuit {module : Option Name} {name : Name} {args : List Expr}
    (named : IsShortCircuit name) (traced : ∀ e ∈ args, Traced e) :
    Traced (.apply module name args) := by
  intro g out code g' success
  have decided : bytes "||" ≠ bytes "&&" := by decide
  rcases args with _ | ⟨left, _ | ⟨right, rest⟩⟩
  · rcases named with rfl | rfl <;> simp [generateExpr, decided] at success
  · rcases named with rfl | rfl <;> simp [generateExpr, decided] at success
  · have leftTraced := traced left (by simp)
    have rightTraced := traced right (by simp)
    have taken : ∃ leftCode g₁ rightCode thenBranch elseBranch,
        generateExpr g out left = .ok (leftCode, g₁) ∧
        generateExpr g₁ out right = .ok (rightCode, g') ∧
        (thenBranch = rightCode ∧ elseBranch = [] ∨ thenBranch = [] ∧ elseBranch = rightCode) ∧
        genBranchInto leftCode out thenBranch elseBranch = .ok code ∧
        traceExpr g out (.apply module name (left :: right :: rest)) = (do
          let leftTrace ← traceExpr g out left
          let rightTrace ← traceExpr g₁ out right
          return leftTrace ++ rightTrace ++ emits (← branchInstrs out thenBranch elseBranch)) := by
      rcases named with rfl | rfl
      · simp only [generateExpr, if_true, Except.bind_eq_ok, Prod.exists, Except.pure_eq_ok,
          Prod.mk.injEq] at success
        obtain ⟨leftCode, g₁, first, rightCode, g₂, second, result, joined, rfl, rfl⟩ := success
        refine ⟨leftCode, g₁, rightCode, rightCode, [], first, second, .inl ⟨rfl, rfl⟩, joined, ?_⟩
        simp [traceExpr, first, second, Except.ok_bind]
      · simp only [generateExpr, decided, if_false, if_true, Except.bind_eq_ok, Prod.exists,
          Except.pure_eq_ok, Prod.mk.injEq] at success
        obtain ⟨leftCode, g₁, first, rightCode, g₂, second, result, joined, rfl, rfl⟩ := success
        refine ⟨leftCode, g₁, rightCode, [], rightCode, first, second, .inr ⟨rfl, rfl⟩, joined, ?_⟩
        simp [traceExpr, first, second, decided, Except.ok_bind]
    obtain ⟨leftCode, g₁, rightCode, thenBranch, elseBranch, first, second, sides, joined, trace⟩ :=
      taken
    obtain ⟨leftTrace, leftOk, leftRun⟩ := leftTraced _ _ _ _ first
    obtain ⟨rightTrace, rightOk, rightRun⟩ := rightTraced _ _ _ _ second
    obtain ⟨test, jumps, tested, -⟩ := genBranchInto_instrs joined
    refine ⟨_, ?_, .shortCircuit named leftRun rightRun sides joined tested⟩
    simp [trace, leftOk, rightOk, tested, Except.ok_bind, pure, Except.pure]

private theorem traced_branch {condition : Expr} {body elseBody : List Expr} (first : Traced condition)
    (second : ∀ e ∈ body, Traced e) (third : ∀ e ∈ elseBody, Traced e) :
    Traced (.if condition body elseBody) := by
  intro g out code g' success
  simp only [generateExpr, Except.bind_eq_ok, Prod.exists, Except.pure_eq_ok, Prod.mk.injEq]
    at success
  obtain ⟨thenBranch, g₁, thenOk, elseBranch, g₂, elseOk, conditionOut, g₃, allocated, res, g₄,
    conditionOk, result, joined, rfl, rfl⟩ := success
  obtain ⟨thenTrace, thenTraced, thenRun⟩ := generates_block second thenOk
  obtain ⟨elseTrace, elseTraced, elseRun⟩ := generates_block third elseOk
  obtain ⟨conditionTrace, conditionTraced, conditionRun⟩ := first _ _ _ _ conditionOk
  obtain ⟨test, jumps, tested, -⟩ := genBranchInto_instrs joined
  refine ⟨_, ?_, .branch thenRun elseRun allocated conditionRun joined tested⟩
  simp [traceExpr, thenTraced, thenOk, elseTraced, elseOk, allocated, conditionTraced, tested,
    Except.ok_bind, pure, Except.pure]

private theorem traced_binding {left : Name} {right : Expr} (value : Traced right) :
    Traced (.let left right) := by
  intro g out code g' success
  simp only [generateExpr] at success
  split at success
  · contradiction
  · next fresh =>
    simp only [Except.bind_eq_ok, Prod.exists, Except.pure_eq_ok, Prod.mk.injEq] at success
    obtain ⟨var, g₁, allocated, generated, g₂, valueOk, rfl, rfl⟩ := success
    obtain ⟨rightTrace, rightTraced, rightRun⟩ := value _ _ _ _ valueOk
    refine ⟨_, ?_, .binding (Bool.eq_false_iff.mpr fresh) allocated rightRun⟩
    simp [traceExpr, allocated, rightTraced, valueOk, Except.ok_bind, pure, Except.pure]

private theorem traced_closure {params : List Name} {body : List Expr} (traced : ∀ e ∈ body, Traced e) :
    Traced (.anonFn params body) := by
  intro g out code g' success
  have accepted := success
  simp only [generateExpr, Except.bind_eq_ok, Prod.exists, Except.pure_eq_ok, Prod.mk.injEq]
    at success
  obtain ⟨child, entered, code, child', generated, size, sized, jump, jumped, rfl, rfl⟩ := success
  obtain ⟨bodyTrace, bodyTraced, bodyRun⟩ := generates_block traced generated
  refine ⟨_, ?_, .closure entered bodyRun sized jumped⟩
  simp [traceExpr, entered, bodyTraced, accepted, Except.ok_bind, pure, Except.pure]

/-- Every successful generation has a trace and is in the relation. -/
theorem traced (e : Expr) : Traced e := by
  induction e with
  | int value =>
    refine traced_leaf (fun g out code g' success => ?_) (fun g out => rfl)
    simp only [generateExpr] at success
    split at success
    · next val parsed =>
      cases success
      exact ⟨_, rfl, by simp [leafInstr, parsed]⟩
    · contradiction
  | ident name =>
    refine traced_leaf (fun g out code g' success => ?_) (fun g out => rfl)
    simp only [generateExpr] at success
    split at success
    · next reg g₁ found =>
      cases success
      exact ⟨_, rfl, by simp [leafInstr, found]⟩
    · contradiction
  | true | false | nil | str | capture =>
    refine traced_leaf (fun g out code g' success => ?_) (fun g out => rfl)
    cases success
    exact ⟨_, rfl, rfl⟩
  | let_ left right value => exact traced_binding value
  | apply module name args ih =>
    by_cases named : IsShortCircuit name
    · exact traced_shortCircuit named ih
    · have ⟨notAnd, notOr⟩ : name ≠ bytes "&&" ∧ name ≠ bytes "||" := not_or.mp named
      refine traced_operation (by simp [Expr.operandExprs, named]) ih (fun g out => ?_)
        (fun g out => ?_)
      · rw [generateExpr.eq_def]
        simp only [notAnd, notOr, if_false, finishOperation]
      · rw [traceExpr.eq_def]
        simp only [notAnd, notOr, if_false, finishOperation]
  | if_ condition body elseBody first second third => exact traced_branch first second third
  | tuple elems ih =>
    refine traced_operation rfl ih (fun g out => ?_) (fun g out => ?_)
    · simp only [generateExpr, finishOperation, Except.ok_bind]
    · simp only [traceExpr, finishOperation, Except.ok_bind]
  | list elems ih =>
    refine traced_operation rfl ih (fun g out => ?_) (fun g out => ?_)
    · simp only [generateExpr, finishOperation, Except.ok_bind]
    · simp only [traceExpr, finishOperation, Except.ok_bind]
  | anonFn params body ih => exact traced_closure ih

end Owl.Compiler
