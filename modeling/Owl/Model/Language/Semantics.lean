import Owl.Model.Compiler.FnGenerator
import Owl.Model.Runtime.Opcodes
import Owl.ToMathlib.Predictions

/-! # What a program means

An evaluator of the source. It has the terms, the heap and the library routines of the runtime, but no
registers, frames, bytes or jumps: variables are names, and a call evaluates the body of its function. The
depth of calls is bounded as the stack of the machine is, so every evaluation ends. Where a collection
would move the terms of the heap, where a module would be loaded, and for closures, captures and string
literals, the evaluator says nothing.
-/

namespace Owl.Language

open Owl.Compiler Owl.Runtime StateExcept

variable {World : Type}

/-- What an operation computes with besides its operands. -/
structure Store (World : Type) where
  heap : Heap
  statics : ℕ → Option StaticFunction
  world : World

def Store.memory (store : Store World) : Memory := ⟨store.heap, store.statics⟩

abbrev Operation (World : Type) := List Term → Store World → Except Stop (Term × Store World)

/-- A routine of the library, and the blocks that it allocates. -/
def library (routine : Routine World) (args : List Term) (store : Store World) :
    Except Stop (Term × Store World) := do
  let reply ← routine store.memory store.world args
  let heap ← store.heap.allocBlocks reply.blocks
  return (reply.result, { store with heap, world := reply.world })

def onWords (operation : Term → Term → Term) : Operation World
  | left :: right :: _, store => .ok (operation left right, store)
  | _, _ => .error .outOfBounds

def onWord (operation : Term → Term) : Operation World
  | value :: _, store => .ok (operation value, store)
  | _, _ => .error .outOfBounds

/-- The two comparisons differ in the sense of the answer. -/
def onEqual (host : Host World) (answer : Bool → Bool) : Operation World
  | left :: right :: _, store => do
      let equal ← host.termsEq store.memory store.world left right
      return (ofBool (answer equal), store)
  | _, _ => .error .outOfBounds

/-- The element of a tuple, or nil behind its end. -/
def elementOf (heap : Heap) (tuple : Term) (index : UInt8) : Term :=
  let ary := extractPtr tuple
  if index.toNat < heap.mem.readNat ary 8 then heap.readTerm (ary + 8 * (index.toNat + 1)) else OWL_NIL

/-- The index of an element is narrowed to a byte. -/
def onTuple : Operation World
  | tuple :: index :: _, store => .ok (elementOf store.heap tuple (intOf index).toUInt8, store)
  | _, _ => .error .outOfBounds

def onLibrary (routine : Routine World) (n : ℕ) : Operation World := fun args => library routine (args.take n)

/-- The built-in operations that produce a term. -/
def operations (host : Host World) : List (Name × Operation World) :=
  [(bytes "+", onWords fun left right => intFrom (intOf left + intOf right)),
   (bytes "++", onLibrary host.concat 2),
   (bytes "-", onWords fun left right => intFrom (intOf left - intOf right)),
   (bytes "==", onEqual host id),
   (bytes "!=", onEqual host (! ·)),
   (bytes "!", onWord negate),
   (bytes ">", onWords fun left right => ofBool (intOf right < intOf left)),
   (bytes "file_pwd", onLibrary host.filePwd 0),
   (bytes "file_ls", onLibrary host.fileLs 1),
   (bytes "tuple_nth", onTuple),
   (bytes "list_nth", onLibrary host.listNth 2),
   (bytes "list_count", onLibrary host.listCount 1),
   (bytes "list_slice", onLibrary host.listSlice 3),
   (bytes "string_slice", onLibrary host.stringSlice 3),
   (bytes "string_count", onLibrary host.stringCount 1),
   (bytes "string_contains", onLibrary host.stringContains 2),
   (bytes "term_to_string", onLibrary host.termToString 1)]

/-- Terms behind each other. -/
def writeTerms : Heap → ℕ → List Term → Heap
  | heap, _, [] => heap
  | heap, address, term :: terms => writeTerms (heap.writeTerm address term) (address + 8) terms

def makeTuple : Operation World := fun elems store => do
  let (ary, heap) ← store.heap.owlAlloc (8 * (elems.length + 1))
  return (tagAs (UInt64.ofNat ary) .tuple,
    { store with heap := writeTerms (heap.writeTerm ary (UInt64.ofNat elems.length)) (ary + 8) elems })

/-- Push elements to a list, one after the other. -/
def pushAll (host : Host World) : Term → Operation World
  | list, [], store => .ok (list, store)
  | list, elem :: elems, store => do
      let (list, store) ← library host.listPush [list, elem] store
      pushAll host list elems store

def makeList (host : Host World) : Operation World := pushAll host (tagAs (UInt64.ofNat host.emptyRrb) .list)

/-- The value that an expression has left, if it has left one. -/
abbrev Content := Option Term

/-- Newest binding first. -/
abbrev Locals := List (Name × Content)

structure State (World : Type) where
  locals : Locals
  store : Store World

/-- An evaluation gives a result, stops the machine, or says nothing. -/
abbrev Eval (World : Type) := StateT (State World) (Predicted Stop)

/-- What calls do: the function is given by its module, its name and its arguments. -/
abbrev Calls (World : Type) := Name → Name → List Term → Store World → Predicted Stop (Content × Store World)

/-- Where an expression stands: its module and the names of the variables of its function. -/
structure Context (World : Type) where
  host : Host World
  call : Calls World
  moduleName : Name
  bound : List Name

/-- The value of an expression whose value is used. -/
def known (content : Content) : Eval World Term := fun state =>
  match content with
  | some term => .ok (term, state)
  | none => .error none

def perform (operation : Operation World) (args : List Term) : Eval World Term := fun state =>
  ((operation args state.store).mapError some).map fun (term, store) => (term, { state with store })

def print (host : Host World) (args : List Term) : Eval World Unit := fun state =>
  match args with
  | term :: _ => ((host.termPrint state.store.memory state.store.world term).mapError some).map fun world =>
      ((), { state with store := { state.store with world } })
  | [] => .error none

def invoke (call : Calls World) (module name : Name) (args : List Term) : Eval World Content := fun state =>
  (call module name args state.store).map fun (content, store) => (content, { state with store })

def readLocal (name : Name) : Eval World Content := fun state =>
  match state.locals.lookup name with
  | some content => .ok (content, state)
  | none => .error none

def bindLocal (name : Name) (content : Content) : Eval World Unit := fun state =>
  .ok ((), { state with locals := (name, content) :: state.locals })

def unspecified {α : Type} : Eval World α := fun _ => .error none

section Evaluation

variable (context : Context World)

/-- A built-in operation or a function, with its arguments. -/
def applyTo (module : Option Name) (name : Name) (content : Content) (args : List Term) : Eval World Content :=
  match (operations context.host).lookup name with
  | some operation => do return some (← perform operation args)
  | none =>
      if name = bytes "print" then do
        print context.host args
        return content
      else if (builtins.lookup name).isSome || (module = none && context.bound.contains name) then unspecified
      else invoke context.call (module.getD context.moduleName) name args

mutual

/-- Evaluate an expression for a place with the given content. A `let` and a call of `print` leave it. -/
def evalExpr (content : Content) : Expr → Eval World Content
  | .int digits =>
      match parseU16 digits with
      | some val => return some (intFrom val.toUInt64)
      | none => unspecified
  | .true => return some OWL_TRUE
  | .false => return some OWL_FALSE
  | .nil => return some OWL_NIL
  | .ident name => do
      return some (← known (← readLocal name))
  | .let left right => do
      let right ← evalExpr none right
      bindLocal left right
      return content
  | .apply module name args =>
      if name = bytes "&&" then
        match args with
        | left :: right :: _ => do
            let left ← known (← evalExpr content left)
            if truthy left then evalExpr (some left) right else return some left
        | _ => unspecified
      else if name = bytes "||" then
        match args with
        | left :: right :: _ => do
            let left ← known (← evalExpr content left)
            if truthy left then return some left else evalExpr (some left) right
        | _ => unspecified
      else do
        let args ← evalArgs args
        applyTo context module name content args
  | .if condition body elseBody => do
      let condition ← known (← evalExpr none condition)
      if truthy condition then evalBlock content body else evalBlock content elseBody
  | .tuple elems => do
      let elems ← evalArgs elems
      return some (← perform makeTuple elems)
  | .list elems => do
      let elems ← evalArgs elems
      return some (← perform (makeList context.host) elems)
  | .str _ => unspecified
  | .capture _ _ _ => unspecified
  | .anonFn _ _ => unspecified

/-- Arguments are evaluated from left to right. -/
def evalArgs : List Expr → Eval World (List Term)
  | [] => return []
  | arg :: args => do
      let arg ← known (← evalExpr none arg)
      return arg :: (← evalArgs args)

def evalBlock (content : Content) : List Expr → Eval World Content
  | [] => return some OWL_NIL
  | expr :: exprs => do
      let content ← evalExpr content expr
      evalExprs content exprs

def evalExprs (content : Content) : List Expr → Eval World Content
  | [] => return content
  | expr :: exprs => do
      let content ← evalExpr content expr
      evalExprs content exprs

end

end Evaluation

mutual

/-- The names that an expression binds in its own function. -/
def exprLets : Expr → List Name
  | .let left right => left :: exprLets right
  | .if condition body elseBody => exprLets condition ++ letsOf body ++ letsOf elseBody
  | .apply _ _ args => letsOf args
  | .tuple elems => letsOf elems
  | .list elems => letsOf elems
  | _ => []

def letsOf : List Expr → List Name
  | [] => []
  | expr :: exprs => exprLets expr ++ letsOf exprs

end

/-- The names of the variables of a function, its parameters among them. -/
def boundNames (f : FunctionDef) : List Name := f.args ++ letsOf f.body

/-- The functions of a program, by module, name and number of parameters. -/
structure Program (World : Type) where
  host : Host World
  definition : Name → Name → ℕ → Option FunctionDef

/-- A call collects first. -/
def collects (heap : Heap) : Bool := heap.toSpace + heap.size / 2 < heap.allocPtr + heap.size / 2 / 10

/-- A later parameter hides an earlier one of the same name. -/
def bindAll (params : List Name) (args : List Term) : Locals := (params.zip (args.map some)).reverse

/-- Call a function with so many frames left on the stack. -/
def callFunction (program : Program World) : ℕ → Calls World
  | depth, module, name, args, store =>
      match program.definition module name args.length with
      | none => .error none
      | some f =>
          if collects store.heap then .error none
          else match depth with
            | 0 => .error (some .assertion)
            | depth + 1 => do
                let context : Context World :=
                  { host := program.host, call := callFunction program depth, moduleName := module,
                    bound := boundNames f }
                let (content, state) ← evalBlock context none f.body { locals := bindAll f.args args, store }
                return (content, state.store)

end Owl.Language
