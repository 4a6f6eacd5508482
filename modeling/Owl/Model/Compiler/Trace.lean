import Owl.Model.Compiler.FnGenerator

/-! # What a generator does, in the order in which it does it

The order of the generated code differs from the order of generation: an `if` generates its two
branches before its condition. A trace lists, for one generator, the states it goes through, the
variables it binds and the instructions it generates, each instruction with the registers into
which its arguments were generated. Traces of anonymous functions are kept apart, because a closure
body has registers of its own.
-/

namespace Owl.Compiler

inductive GenEvent where
  | state (self : FnGenerator)
  | bind (name : Name) (reg : VarRef)
  | emit (instr : Instruction) (outputs : List VarRef)
deriving DecidableEq, Repr

/-- The events of the running generator and of every closure generated meanwhile. -/
structure GenTrace where
  own : List GenEvent
  closures : List (List GenEvent)
deriving DecidableEq, Repr

namespace GenTrace

def ofEvents (own : List GenEvent) : GenTrace := ⟨own, []⟩

def append (first second : GenTrace) : GenTrace :=
  ⟨first.own ++ second.own, first.closures ++ second.closures⟩

instance : Append GenTrace := ⟨append⟩

@[simp] theorem ofEvents_own (own : List GenEvent) : (ofEvents own).own = own := rfl

@[simp] theorem ofEvents_closures (own : List GenEvent) : (ofEvents own).closures = [] := rfl

@[simp] theorem append_own (first second : GenTrace) :
    (first ++ second).own = first.own ++ second.own := rfl

@[simp] theorem append_closures (first second : GenTrace) :
    (first ++ second).closures = first.closures ++ second.closures := rfl

theorem append_assoc (first second third : GenTrace) :
    first ++ second ++ third = first ++ (second ++ third) :=
  congrArg₂ GenTrace.mk (List.append_assoc ..) (List.append_assoc ..)

/-- Every event list of the trace: its own first, then one for each closure. -/
def functions (trace : GenTrace) : List (List GenEvent) := trace.own :: trace.closures

end GenTrace

/-- Instructions that take no generated arguments. -/
def emits (code : Bytecode) : GenTrace := .ofEvents (code.map (.emit · []))

/-- The registers into which a list of arguments is generated. -/
def argOutputs (g : Scope) : List Expr → Except Panic (List VarRef)
  | [] => .ok []
  | arg :: args => do
      let (argOut, g) ← g.push
      let (_, g) ← generateExpr g argOut arg
      return argOut :: (← argOutputs g args)

/-- The states between the pops that rebuild an operand list. -/
def Scope.popStates (g : Scope) : ℕ → Except Panic (List FnGenerator)
  | 0 => .ok []
  | n + 1 => do
      let (_, g) ← g.pop
      return g.self :: (← g.popStates n)

/-- The end of an operation: pop its operands and emit its instruction. -/
def operationTrace (g popped : Scope) (args : List Expr) (instr : Instruction) :
    Except Panic GenTrace := do
  let states ← popped.popStates args.length
  return .ofEvents (states.map .state ++ [.emit instr (← argOutputs g args)])

/-- The test and the jump that join two branches. -/
def branchInstrs (reg : VarRef) (thenBranch elseBranch : Bytecode) : Except Panic Bytecode := do
  let thenSize ← byteSizeOf thenBranch
  let jump ← if 0 < thenSize then do
      pure [Instruction.jmp (← checkedAdd thenSize 1)]
    else pure []
  let elseSize ← byteSizeOf (elseBranch ++ jump)
  return .test reg (← checkedAdd elseSize 1) :: jump

/-- A function starts with its parameters bound and ends with `Return`. -/
def functionEvents (self : FnGenerator) (body : List GenEvent) : List GenEvent :=
  .state self :: self.env.map (fun (name, reg) => .bind name reg) ++ body ++ [.emit .return []]

mutual

def traceExpr (g : Scope) (out : VarRef) : Expr → Except Panic GenTrace
  | .apply module name args =>
      if name = bytes "&&" then
        match args with
        | left :: right :: _ => do
            let leftTrace ← traceExpr g out left
            let (_, g) ← generateExpr g out left
            let rightTrace ← traceExpr g out right
            let (thenBranch, _) ← generateExpr g out right
            return leftTrace ++ rightTrace ++ emits (← branchInstrs out thenBranch [])
        | _ => .error .indexOutOfBounds
      else if name = bytes "||" then
        match args with
        | left :: right :: _ => do
            let leftTrace ← traceExpr g out left
            let (_, g) ← generateExpr g out left
            let rightTrace ← traceExpr g out right
            let (elseBranch, _) ← generateExpr g out right
            return leftTrace ++ rightTrace ++ emits (← branchInstrs out [] elseBranch)
        | _ => .error .indexOutOfBounds
      else do
        let argsTrace ← traceArgs g args
        let (_, popped) ← generateArgs g args
        let (locations, applied) ← popped.argLocations args
        let (me, _) ← applied.applyOp module name out locations (UInt8.ofNat args.length)
        return argsTrace ++ (← operationTrace g popped args me)
  | .tuple elems => do
      let argsTrace ← traceArgs g elems
      let (_, popped) ← generateArgs g elems
      let (locations, _) ← popped.argLocations elems
      return argsTrace ++
        (← operationTrace g popped elems (.tuple out (UInt8.ofNat elems.length) locations))
  | .list elems => do
      let argsTrace ← traceArgs g elems
      let (_, popped) ← generateArgs g elems
      let (locations, _) ← popped.argLocations elems
      return argsTrace ++
        (← operationTrace g popped elems (.list out (UInt8.ofNat elems.length) locations))
  | .if condition body elseBody => do
      let thenTrace ← traceBlock g out body
      let (thenBranch, g) ← generateBlock g out body
      let elseTrace ← traceBlock g out elseBody
      let (elseBranch, g) ← generateBlock g out elseBody
      let (conditionOut, g) ← g.push
      let conditionTrace ← traceExpr g conditionOut condition
      let jumps ← branchInstrs conditionOut thenBranch elseBranch
      return thenTrace ++ elseTrace ++ .ofEvents [.state g.self] ++ conditionTrace ++ emits jumps
  | .let left right => do
      let (var, g) ← g.push
      let rightTrace ← traceExpr g var right
      let (_, bound) ← generateExpr g var right
      return .ofEvents [.state g.self] ++ rightTrace ++
        .ofEvents [.state (bound.insertEnv left var).self, .bind left var]
  | .anonFn args body => do
      let child ← g.child args
      let bodyTrace ← traceBlock child (.register 0) body
      let (code, _) ← generateExpr g out (.anonFn args body)
      return (emits (code.take 1)) ++
        ⟨[], functionEvents child.self bodyTrace.own :: bodyTrace.closures⟩
  | leaf => do
      let (code, _) ← generateExpr g out leaf
      return emits code

def traceArgs (g : Scope) : List Expr → Except Panic GenTrace
  | [] => .ok (.ofEvents [])
  | arg :: args => do
      let (argOut, g) ← g.push
      let argTrace ← traceExpr g argOut arg
      let (_, next) ← generateExpr g argOut arg
      return .ofEvents [.state g.self] ++ argTrace ++ (← traceArgs next args)

def traceBlock (g : Scope) (out : VarRef) : List Expr → Except Panic GenTrace
  | [] => .ok (emits [.storeNil out])
  | expr :: exprs => do
      let exprTrace ← traceExpr g out expr
      let (_, g) ← generateExpr g out expr
      return exprTrace ++ (← traceExprs g out exprs)

def traceExprs (g : Scope) (out : VarRef) : List Expr → Except Panic GenTrace
  | [] => .ok (.ofEvents [])
  | expr :: exprs => do
      let exprTrace ← traceExpr g out expr
      let (_, g) ← generateExpr g out expr
      return exprTrace ++ (← traceExprs g out exprs)

end

/-- The traces of a whole function: its own events first, then those of its closures. -/
def traceFunction (moduleName : Name) (f : FunctionDef) : Except Panic (List (List GenEvent)) := do
  let self ← FnGenerator.new moduleName f.name f.args
  let trace ← traceBlock { self, parents := [] } (.register 0) f.body
  return functionEvents self trace.own :: trace.closures

end Owl.Compiler
