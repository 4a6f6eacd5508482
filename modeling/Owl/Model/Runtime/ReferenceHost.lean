import Owl.Model.Compiler.FnGenerator
import Owl.Model.Runtime.Library
import Owl.Model.Runtime.Run
import Owl.ToMathlib.Except

/-! # A system to run on

Texts are numbered in the order in which a pool first sees them, starting at one, and the system
allocator hands out one address after the other from a range of its own. The current directory is the root,
and it is empty.
-/

namespace Owl.Runtime

/-- The texts of the two pools, oldest first, and the number of blocks handed out. -/
structure Tables where
  functionNames : List Bytes
  internPool : List Bytes
  allocated : ℕ
deriving DecidableEq, Repr

namespace Tables

def empty : Tables := ⟨[], [], 0⟩

def texts (tables : Tables) : Pool → List Bytes
  | .functionNames => tables.functionNames
  | .internPool => tables.internPool

def setTexts (tables : Tables) (pool : Pool) (texts : List Bytes) : Tables :=
  match pool with
  | .functionNames => { tables with functionNames := texts }
  | .internPool => { tables with internPool := texts }

/-- `strings_lookup`; zero stands for an unknown text. -/
def lookup (tables : Tables) (pool : Pool) (text : Bytes) : ℕ :=
  match (tables.texts pool).findIdx? (· = text) with
  | some index => index + 1
  | none => 0

/-- `strings_intern`. -/
def intern (tables : Tables) (pool : Pool) (text : Bytes) : ℕ × Tables :=
  match (tables.texts pool).findIdx? (· = text) with
  | some index => (index + 1, tables)
  | none => ((tables.texts pool).length + 1, tables.setTexts pool (tables.texts pool ++ [text]))

/-- Where a pool keeps a text. -/
def address : Pool → ℕ → ℕ
  | .functionNames, id => 2 ^ 24 + 256 * id
  | .internPool, id => 2 ^ 25 + 256 * id

def malloc (tables : Tables) : ℕ × Tables :=
  (2 ^ 20 + 32 * (tables.allocated % 2 ^ 15), { tables with allocated := tables.allocated + 1 })

/-- The texts of the pools and the literals, at their addresses. -/
def contents (tables : Tables) (address : ℕ) : Option Bytes :=
  if 2 ^ 25 ≤ address then tables.internPool[(address - 2 ^ 25) / 256 - 1]?
  else if 2 ^ 24 ≤ address then tables.functionNames[(address - 2 ^ 24) / 256 - 1]?
  else if 2 ^ 23 ≤ address then literals[(address - 2 ^ 23) / 16]?
  else none

end Tables

def emptyRrbAddress : ℕ := 2 ^ 22

def referenceSystem : System Tables where
  stack := 1000
  emptyRrb := emptyRrbAddress
  literal text := 2 ^ 23 + 16 * literals.findIdx (· = text)
  pathMax := 1024
  pathMax_pos := by decide
  malloc := Tables.malloc
  intern := Tables.intern
  lookup := Tables.lookup
  lookupId _ pool id := Tables.address pool id
  text tables pool id := (tables.texts pool).getD (id - 1) []
  contents := Tables.contents
  moduleFile _ _ := none
  compileFile _ _ _ := []
  print tables _ := tables
  cwd _ := bytes "/"
  entries _ _ := [bytes ".", bytes ".."]
  scratch _ := []

def referenceHost : Host Tables := referenceSystem.host

/-- What the compiler makes of a module. -/
def bytecodeOf (module : Compiler.ModuleDef) : Bytes :=
  (Compiler.generate module >>= Compiler.Module.emit).toOption.getD []

/-- Load a module into a new machine and start a function. -/
def launch (bytecode functionName : Bytes) (arena : ℕ) : Except Stop (Vm Tables) := do
  let (_, vm) ← (loadModule referenceHost bytecode).run (Vm.new .empty (fun _ => 0) arena)
  let (_, vm) ← (enterFunction referenceHost functionName).run vm
  return vm

theorem launch_started {bytecode functionName : Bytes} {arena : ℕ} {vm : Vm Tables}
    (launched : launch bytecode functionName arena = .ok vm) : Started referenceHost arena vm := by
  simp only [launch, Except.bind_eq_ok, Prod.exists, Except.pure_eq_ok] at launched
  obtain ⟨functions, loaded, loading, _, _, entered, rfl⟩ := launched
  exact ⟨loaded, functionName, .load (.new _ _) loading, entered⟩

end Owl.Runtime
