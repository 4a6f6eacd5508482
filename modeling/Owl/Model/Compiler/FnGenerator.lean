import Owl.Model.Compiler.Instruction

/-! # The function generator

One generator runs per function body. It owns a register counter, the environment of its variables
and the list of references it captures; a generator of an anonymous function also sees its parents,
whose captured lists it may extend while it searches for an identifier. The state threaded through
generation is therefore the running generator with the chain of its parents, innermost first.
-/

namespace Owl.Compiler

/-- Newest binding first: an insertion shadows an older binding of the same name. -/
abbrev Env := List (Name × VarRef)

structure FnGenerator where
  varCount : UInt8
  moduleName : Name
  functionName : Name
  env : Env
  upvals : List VarRef
deriving DecidableEq, Repr

/-- Every argument takes the next register, starting at one. -/
def bindArgs : List Name → UInt8 → Env → Except Panic (UInt8 × Env)
  | [], varCount, env => .ok (varCount, env)
  | arg :: args, varCount, env => do
      let varCount ← checkedAdd varCount 1
      bindArgs args varCount ((arg, .register varCount) :: env)

def FnGenerator.new (moduleName functionName : Name) (args : List Name) :
    Except Panic FnGenerator := do
  let (varCount, env) ← bindArgs args 0 []
  return { varCount, moduleName, functionName, env, upvals := [] }

/-- A reference already captured keeps its index; a new one goes to the end of the list. -/
def FnGenerator.pushUpval (self : FnGenerator) (varRef : VarRef) : VarRef × FnGenerator :=
  match self.upvals.findIdx? (· = varRef) with
  | some index => (.upvalue (UInt8.ofNat index), self)
  | none =>
      (.upvalue (UInt8.ofNat self.upvals.length), { self with upvals := self.upvals ++ [varRef] })

/-- The running generator and the chain of its parents. -/
structure Scope where
  self : FnGenerator
  parents : List FnGenerator
deriving DecidableEq, Repr

/-- Search a chain of generators, innermost first. Each generator passed on the way to the binder
captures the reference that its parent found. -/
def searchChain (identifier : Name) : List FnGenerator → Option VarRef × List FnGenerator
  | [] => (none, [])
  | self :: parents =>
      match self.env.lookup identifier with
      | some varRef => (some varRef, self :: parents)
      | none =>
          match searchChain identifier parents with
          | (some upval, parents) =>
              let (varRef, self) := self.pushUpval upval
              (some varRef, self :: parents)
          | (none, parents) => (none, self :: parents)

def Scope.searchEnv (g : Scope) (identifier : Name) : Option VarRef × Scope :=
  match g.self.env.lookup identifier with
  | some varRef => (some varRef, g)
  | none =>
      match searchChain identifier g.parents with
      | (some upval, parents) =>
          let (varRef, self) := g.self.pushUpval upval
          (some varRef, { self, parents })
      | (none, parents) => (none, { g with parents })

def Scope.identifierExistsInScope (g : Scope) (identifier : Name) : Bool :=
  (g.self :: g.parents).any fun generator => (generator.env.lookup identifier).isSome

def Scope.insertEnv (g : Scope) (identifier : Name) (reg : VarRef) : Scope :=
  { g with self := { g.self with env := (identifier, reg) :: g.self.env } }

/-- Allocate the next register. -/
def Scope.push (g : Scope) : Except Panic (VarRef × Scope) := do
  let varCount ← checkedAdd g.self.varCount 1
  return (.register varCount, { g with self := { g.self with varCount } })

/-- Give back the newest register. -/
def Scope.pop (g : Scope) : Except Panic (VarRef × Scope) := do
  let varCount ← checkedSub g.self.varCount 1
  return (.register g.self.varCount, { g with self := { g.self with varCount } })

/-- One `pop` per argument, newest register first. -/
def Scope.popEach (g : Scope) : ℕ → Except Panic (List VarRef × Scope)
  | 0 => .ok ([], g)
  | n + 1 => do
      let (reg, g) ← g.pop
      let (regs, g) ← g.popEach n
      return (reg :: regs, g)

/-- The operand list that the generator rebuilds after its arguments: pop one register per
argument and reverse. -/
def Scope.argLocations (g : Scope) (args : List Expr) : Except Panic (List VarRef × Scope) := do
  let (regs, g) ← g.popEach args.length
  return (regs.reverse, g)

def arg (args : List VarRef) (i : ℕ) : Except Panic VarRef :=
  match args[i]? with
  | some reg => .ok reg
  | none => .error .indexOutOfBounds

/-- The instruction of a built-in operation, from its return location and its operands. -/
abbrev Emitter := VarRef → List VarRef → Except Panic Instruction

def effect (instr : VarRef → Instruction) : Emitter := fun _ args => do
  return instr (← arg args 0)

def nullary (instr : VarRef → Instruction) : Emitter := fun retLoc _ => .ok (instr retLoc)

def unary (instr : VarRef → VarRef → Instruction) : Emitter := fun retLoc args => do
  return instr retLoc (← arg args 0)

def binary (instr : VarRef → VarRef → VarRef → Instruction) : Emitter := fun retLoc args => do
  return instr retLoc (← arg args 0) (← arg args 1)

def ternary (instr : VarRef → VarRef → VarRef → VarRef → Instruction) : Emitter :=
  fun retLoc args => do
    return instr retLoc (← arg args 0) (← arg args 1) (← arg args 2)

/-- The arms of `apply_op`, in source order. -/
def builtins : List (Name × Emitter) :=
  [(bytes "+", binary .add),
   (bytes "++", binary .concat),
   (bytes "-", binary .sub),
   (bytes "==", binary .eq),
   (bytes "!=", binary .notEq),
   (bytes "!", unary .not),
   (bytes ">", binary .greaterThan),
   (bytes "exit", effect .exit),
   (bytes "print", effect .print),
   (bytes "file_pwd", nullary .filePwd),
   (bytes "file_ls", unary .fileLs),
   (bytes "tuple_nth", binary .tupleNth),
   (bytes "list_nth", binary .listNth),
   (bytes "list_count", unary .listCount),
   (bytes "list_slice", ternary .listSlice),
   (bytes "string_slice", ternary .stringSlice),
   (bytes "string_count", unary .stringCount),
   (bytes "code_load", unary .codeLoad),
   (bytes "function_name", unary .functionName),
   (bytes "string_contains", binary .stringContains),
   (bytes "term_to_string", unary .toString),
   (bytes "gc_collect", nullary .gcCollect)]

/-- `format!("{}.{}", module, name)`. -/
def qualifiedName (module name : Name) : Name := module ++ bytes "." ++ name

/-- The environment is searched, and captures are recorded, even when a module is given. -/
def Scope.genericApply (g : Scope) (module : Option Name) (name : Name) (retLoc : VarRef)
    (args : List VarRef) (arity : UInt8) : Instruction × Scope :=
  match module, g.searchEnv name with
  | none, (some varRef, g) => (.callLocal retLoc varRef args, g)
  | _, (_, g) =>
      (.call retLoc (qualifiedName (module.getD g.self.moduleName) name) arity args, g)

def Scope.applyOp (g : Scope) (module : Option Name) (name : Name) (retLoc : VarRef)
    (args : List VarRef) (arity : UInt8) : Except Panic (Instruction × Scope) :=
  match builtins.lookup name with
  | some emitter => do return (← emitter retLoc args, g)
  | none => .ok (g.genericApply module name retLoc args arity)

/-- Digits of a literal; a sign is accepted by `u16::from_str`, an empty text is not. -/
def parseU16 (value : Bytes) : Option UInt16 :=
  let digits := match value with
    | 43 :: rest => rest
    | other => other
  if digits.isEmpty || digits.any (fun d => d < 48 || 57 < d) then none
  else
    let n := digits.foldl (fun acc d => acc * 10 + (d.toNat - 48)) 0
    if n < 65536 then some (UInt16.ofNat n) else none

/-- `Test` skips the else branch, and the jump that ends it skips the then branch. -/
def genBranchInto (code : Bytecode) (reg : VarRef) (thenBranch elseBranch : Bytecode) :
    Except Panic Bytecode := do
  let thenSize ← byteSizeOf thenBranch
  let elseBranch ← if 0 < thenSize then do
      pure (elseBranch ++ [.jmp (← checkedAdd thenSize 1)])
    else pure elseBranch
  let elseSize ← byteSizeOf elseBranch
  return code ++ [.test reg (← checkedAdd elseSize 1)] ++ elseBranch ++ thenBranch

/-- The scope in which the body of an anonymous function is generated. -/
def Scope.child (g : Scope) (args : List Name) : Except Panic Scope := do
  return { self := ← FnGenerator.new g.self.moduleName (bytes "anon") args,
           parents := g.self :: g.parents }

/-- Back in the parent after an anonymous function: the child has only changed captured lists. -/
def Scope.leave (child : Scope) (g : Scope) : Scope :=
  match child.parents with
  | self :: parents => { self, parents }
  | [] => g

mutual

def generateExpr (g : Scope) (out : VarRef) : Expr → Except Panic (Bytecode × Scope)
  | .apply module name args =>
      if name = bytes "&&" then
        match args with
        | left :: right :: _ => do
            let (res, g) ← generateExpr g out left
            let (thenBranch, g) ← generateExpr g out right
            return (← genBranchInto res out thenBranch [], g)
        | _ => .error .indexOutOfBounds
      else if name = bytes "||" then
        match args with
        | left :: right :: _ => do
            let (res, g) ← generateExpr g out left
            let (elseBranch, g) ← generateExpr g out right
            return (← genBranchInto res out [] elseBranch, g)
        | _ => .error .indexOutOfBounds
      else do
        let (res, g) ← generateArgs g args
        let (locations, g) ← g.argLocations args
        let (me, g) ← g.applyOp module name out locations (UInt8.ofNat args.length)
        return (res ++ [me], g)
  | .int value =>
      match parseU16 value with
      | some val => .ok ([.storeInt out val], g)
      | none => .error .parseInt
  | .if condition body elseBody => do
      let (thenBranch, g) ← generateBlock g out body
      let (elseBranch, g) ← generateBlock g out elseBody
      let (conditionOut, g) ← g.push
      let (res, g) ← generateExpr g conditionOut condition
      return (← genBranchInto res conditionOut thenBranch elseBranch, g)
  | .tuple elems => do
      let (res, g) ← generateArgs g elems
      let (locations, g) ← g.argLocations elems
      return (res ++ [.tuple out (UInt8.ofNat elems.length) locations], g)
  | .list elems => do
      let (res, g) ← generateArgs g elems
      let (locations, g) ← g.argLocations elems
      return (res ++ [.list out (UInt8.ofNat elems.length) locations], g)
  | .ident name =>
      match g.searchEnv name with
      | (some reg, g) => .ok ([.mov out reg], g)
      | (none, _) => .error (.undefinedVariable name)
  | .true => .ok ([.storeTrue out], g)
  | .false => .ok ([.storeFalse out], g)
  | .nil => .ok ([.storeNil out], g)
  | .str value => .ok ([.loadString out value], g)
  | .capture module name arity =>
      .ok ([.capture out (qualifiedName (module.getD g.self.moduleName) name) arity], g)
  | .let left right =>
      if g.identifierExistsInScope left then .error (.rebindVariable left)
      else do
        let (var, g) ← g.push
        let (generated, g) ← generateExpr g var right
        return (generated, g.insertEnv left var)
  | .anonFn args body => do
      let child ← g.child args
      let (code, child) ← generateBlock child (.register 0) body
      let code := code ++ [.return]
      let jmp ← checkedAdd (← byteSizeOf code) 1
      return (.anonFn out jmp (UInt8.ofNat args.length) child.self.upvals :: code, child.leave g)

/-- Arguments, each into a register of its own. -/
def generateArgs (g : Scope) : List Expr → Except Panic (Bytecode × Scope)
  | [] => .ok ([], g)
  | arg :: args => do
      let (argOut, g) ← g.push
      let (code, g) ← generateExpr g argOut arg
      let (rest, g) ← generateArgs g args
      return (code ++ rest, g)

/-- An empty block still writes its output register. -/
def generateBlock (g : Scope) (out : VarRef) : List Expr → Except Panic (Bytecode × Scope)
  | [] => .ok ([.storeNil out], g)
  | expr :: exprs => do
      let (code, g) ← generateExpr g out expr
      let (rest, g) ← generateExprs g out exprs
      return (code ++ rest, g)

/-- The remaining expressions of a block. -/
def generateExprs (g : Scope) (out : VarRef) : List Expr → Except Panic (Bytecode × Scope)
  | [] => .ok ([], g)
  | expr :: exprs => do
      let (code, g) ← generateExpr g out expr
      let (rest, g) ← generateExprs g out exprs
      return (code ++ rest, g)

end

/-- Code of a whole function body: the block writes register 0. -/
def generateCode (g : Scope) (body : List Expr) : Except Panic (Bytecode × Scope) := do
  let (code, g) ← generateBlock g (.register 0) body
  return (code ++ [.return], g)

def generateFunction (moduleName : Name) (f : FunctionDef) : Except Panic Function := do
  let self ← FnGenerator.new moduleName f.name f.args
  let (code, _) ← generateCode { self, parents := [] } f.body
  return { name := qualifiedName moduleName f.name, arity := UInt8.ofNat f.args.length, code }

def generate (module : ModuleDef) : Except Panic Module := do
  return { name := module.name, functions := ← module.functions.mapM (generateFunction module.name) }

end Owl.Compiler
