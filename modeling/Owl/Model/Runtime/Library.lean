import Owl.Model.Lists.Interface
import Owl.Model.Runtime.Equality
import Owl.Model.Runtime.ListMemory
import Owl.Model.Runtime.Printing

/-! # The runtime library

The routines behind the instructions on terms, lists, strings and files, for a machine in a given system. A text
is either static, as interned texts and literals are, or on the heap up to its terminator. A list routine stops
where the C code would read a slot behind the end of a node.
-/

namespace Owl.Runtime

open Owl.Lists

/-- What the code uses that is not its own: the C library, the interning library and the static objects. -/
structure System (World : Type) where
  stack : ℕ
  emptyRrb : ℕ
  literal : Bytes → ℕ
  /-- `PATH_MAX`, the size of a buffer. -/
  pathMax : ℕ
  pathMax_pos : 0 < pathMax
  malloc : World → ℕ × World
  intern : World → Pool → Bytes → ℕ × World
  lookup : World → Pool → Bytes → ℕ
  lookupId : World → Pool → ℕ → ℕ
  text : World → Pool → ℕ → Bytes
  /-- The bytes at an address outside the heap. -/
  contents : World → ℕ → Option Bytes
  moduleFile : World → Bytes → Option Bytes
  compileFile : World → Heap → Term → Bytes
  print : World → Bytes → World
  cwd : World → Bytes
  /-- What `readdir` returns, one after the other. -/
  entries : World → Bytes → List Bytes
  /-- Blocks for intermediate results. -/
  scratch : Heap → List Bytes

namespace System

variable {World : Type} (system : System World)

def textAt (world : World) (heap : Heap) (address : ℕ) : Except Stop Bytes :=
  if address = 0 then .error .outOfBounds
  else
    match system.contents world address with
    | some text => .ok (textOf text)
    | none => do
        let len ← heap.strlen address
        return heap.mem.readBytes address len

/-- A buffer that holds a text. -/
def newString (text : Bytes) : Allocating Term := do
  let buffer ← Allocating.alloc system.scratch (text ++ [0])
  return tagAs (UInt64.ofNat buffer) .string

/-- A buffer of a fixed size, of which a text and its terminator take as much as they need. -/
def fill (size : ℕ) (text : Bytes) : Bytes :=
  if text.length < size then text ++ List.replicate (size - text.length) 0 else List.replicate size 0

/-- `owl_string_from` for a literal. -/
def fromLiteral (text : Bytes) : Term := tagAs (UInt64.ofNat (system.literal text)) .string

def owlStringConcat (world : World) (left right : Term) : Allocating Term := do
  let leftStr ← Allocating.read fun heap => system.textAt world heap (extractPtr left)
  let rightStr ← Allocating.read fun heap => system.textAt world heap (extractPtr right)
  system.newString (leftStr ++ rightStr)

def owlStringSlice (world : World) (string start stop : Term) : Allocating Term := do
  let text ← Allocating.read fun heap => system.textAt world heap (extractPtr string)
  match stringSlice text start stop with
  | .ok sliced => system.newString sliced
  | .error (.stopped _) => throw (.exit 1)
  | .error .readsOutside => throw .outOfBounds

def owlStringCount (world : World) (string : Term) : Allocating Term := do
  let text ← Allocating.read fun heap => system.textAt world heap (extractPtr string)
  return intFrom (UInt64.ofNat text.length)

/-- `strstr` looks for the text at every position. -/
def owlStringContains (world : World) (string substr : Term) : Allocating Term := do
  let text ← Allocating.read fun heap => system.textAt world heap (extractPtr string)
  let part ← Allocating.read fun heap => system.textAt world heap (extractPtr substr)
  return ofBool (text.tails.any part.isPrefixOf)

def listOf (heap : Heap) (list : Term) : Except Stop ListAt :=
  match heap.listAt system.emptyRrb (extractPtr list) with
  | some found => .ok found
  | none => .error .outOfBounds

/-- `rrb_to_list`, for the result of a function on trees. -/
def listFrom (operands : List ListAt) (result : Option (RrbPtr Term)) : Allocating Term :=
  match result with
  | none => throw .outOfBounds
  | some result => do
      let address ← placeList system.scratch system.emptyRrb operands result
      return tagAs (UInt64.ofNat address) .list

def owlListInit : Term := tagAs (UInt64.ofNat system.emptyRrb) .list

def owlListPush (list elem : Term) : Allocating Term := do
  let found ← Allocating.read (system.listOf · list)
  if (pushReads .null found.list.head).all fun slot => slot.Inside then
    system.listFrom [found] (rrbPushAt .null found.list elem)
  else throw .outOfBounds

def owlListNth (list index : Term) : Allocating Term := do
  let found ← Allocating.read (system.listOf · list)
  match Lists.owlListNth found.list.head index with
  | some elem => return elem
  | none => throw .outOfBounds

def owlListCount (list : Term) : Allocating Term := do
  let found ← Allocating.read (system.listOf · list)
  return intFrom (UInt64.ofNat (rrbCount found.list.head))

def owlListSlice (list start stop : Term) : Allocating Term := do
  let found ← Allocating.read (system.listOf · list)
  system.listFrom [found] (rrbSliceAt found.list (u32 (intOf start).toNat) (u32 (intOf stop).toNat))

def owlListConcat (left right : Term) : Allocating Term := do
  let left ← Allocating.read (system.listOf · left)
  let right ← Allocating.read (system.listOf · right)
  if (concatReads .null left.list.head right.list.head).all fun slot => slot.Inside then
    system.listFrom [left, right] (rrbConcat .null left.list right.list)
  else throw .outOfBounds

def owlConcat (world : World) (left right : Term) : Allocating Term :=
  if tagOf left ≠ tagOf right then throw (.exit 1)
  else if tagOf left = Tag.string.bits then system.owlStringConcat world left right
  else if tagOf left = Tag.list.bits then system.owlListConcat left right
  else throw (.exit 1)

/-- `fun->name`. -/
def functionName (memory : Memory) (function : ℕ) : ℕ :=
  match memory.statics function with
  | some record => record.name
  | none => memory.heap.mem.readNat (function + 8) 8

/-- What a walk over a term reads. The two walks differ in what they make of a word without a text. -/
def datumAt (world : World) (memory : Memory) (other : Except Stop Datum) : ℕ → Term → Except Stop Datum
  | 0, _ => .error .stackOverflow
  | stack + 1, term =>
      if term = OWL_TRUE then .ok .true
      else if term = OWL_FALSE then .ok .false
      else if term = OWL_NIL then .ok .nil
      else if tagOf term = Tag.int.bits then .ok (.int (intOf term).toNat)
      else if tagOf term = Tag.tuple.bits then do
        let ary := extractPtr term
        let size := memory.heap.mem.readNat ary 8 % 2 ^ 8
        let elems ← (memory.heap.readTerms (ary + 8) size).mapM (datumAt world memory other stack)
        return .tuple elems
      else if tagOf term = Tag.list.bits then do
        let list ← system.listOf memory.heap term
        let elems ← (List.range (rrbCount list.list.head)).mapM fun i =>
          match Lists.owlListNth list.list.head (intFrom (UInt64.ofNat i)) with
          | some elem => datumAt world memory other stack elem
          | none => .error .outOfBounds
        return .list elems
      else if tagOf term = Tag.string.bits then do
        let text ← system.textAt world memory.heap (extractPtr term)
        return .string text
      else if tagOf term = Tag.function.bits then do
        let text ← system.textAt world memory.heap (functionName memory (extractPtr term))
        return .function text
      else other

/-- `INT_MAX_DIGITS`. -/
def INT_MAX_DIGITS : ℕ := 20

/-- The string for a datum. A tuple of 255 elements comes to an end at its size word, which has no text. -/
def datumString (datum : Datum) : Allocating Term :=
  match datum.toText with
  | none => throw (.exit 1)
  | some text =>
      match datum with
      | .int _ => do
          let buf ← Allocating.alloc system.scratch (fill (INT_MAX_DIGITS + 1) text)
          return tagAs (UInt64.ofNat buf) .string
      | .tuple [] => return system.fromLiteral text
      | _ => system.newString text

def owlTermToString (world : World) (statics : ℕ → Option StaticFunction) (term : Term) : Allocating Term :=
  if term = OWL_TRUE then return system.fromLiteral (bytes "true")
  else if term = OWL_FALSE then return system.fromLiteral (bytes "false")
  else if term = OWL_NIL then return system.fromLiteral (bytes "nil")
  else if tagOf term = Tag.string.bits then return term
  else if tagOf term = Tag.function.bits then do
    let name ← Allocating.read fun heap => .ok (functionName ⟨heap, statics⟩ (extractPtr term))
    return tagAs (UInt64.ofNat name) .string
  else do
    let datum ← Allocating.read fun heap =>
      system.datumAt world ⟨heap, statics⟩ (.error (.exit 1)) system.stack term
    system.datumString datum

/-- `owl_term_print`; the text of a loop that does not end is never complete. -/
def owlTermPrint (memory : Memory) (world : World) (term : Term) : Except Stop World := do
  let datum ← system.datumAt world memory (.ok (.string (bytes "???"))) system.stack term
  match datum.print with
  | some text => return system.print world text
  | none => throw .die

/-- The objects that a comparison can come to. -/
def storedAt (world : World) (heap : Heap) : ℕ → Term → List (ℕ × Stored)
  | 0, _ => []
  | stack + 1, term =>
      let object := extractPtr term
      if term = OWL_TRUE ∨ term = OWL_FALSE ∨ term = OWL_NIL then []
      else if tagOf term = Tag.tuple.bits then
        let words := heap.readTerms object (heap.mem.readNat object 8 % 2 ^ 8 + 1)
        (object, .tuple words) :: words.tail.flatMap (storedAt world heap stack)
      else if tagOf term = Tag.list.bits then
        match system.listOf heap term with
        | .ok list =>
            let elems := (List.range (rrbCount list.list.head)).filterMap fun i => (rrbNth list.list.head i).join
            (object, .list list.list.head) :: elems.flatMap (storedAt world heap stack)
        | .error _ => []
      else if tagOf term = Tag.string.bits then
        match system.textAt world heap object with
        | .ok text => [(object, .string text)]
        | .error _ => []
      else if tagOf term = Tag.function.bits then [(object, .function)]
      else []

/-- `owl_terms_eq`. -/
def owlTermsEq (memory : Memory) (world : World) (left right : Term) : Except Stop Bool :=
  let objects := [left, right].flatMap (system.storedAt world memory.heap system.stack)
  match termsEq (fun address => (objects.find? (·.1 = address)).map Prod.snd) (2 ^ 64) left right with
  | .ok equal => .ok equal
  | .error .running => .error .stackOverflow
  | .error .badAddress => .error .outOfBounds

def owlFilePwd (world : World) : Allocating Term := do
  let cwd ← Allocating.alloc system.scratch (fill system.pathMax (system.cwd world))
  return tagAs (UInt64.ofNat cwd) .string

/-- The loop of `owl_file_ls`. -/
def pushEntries : List Bytes → Term → Allocating Term
  | [], result => return result
  | name :: names, result =>
      if name = bytes "." ∨ name = bytes ".." then pushEntries names result
      else do
        let entry ← system.newString name
        let result ← system.owlListPush result entry
        pushEntries names result

def owlFileLs (world : World) (path : Term) : Allocating Term := do
  let dirname ← Allocating.read fun heap => system.textAt world heap (extractPtr path)
  system.pushEntries (system.entries world dirname) system.owlListInit

/-- A routine of the machine, from the computation with its arguments. -/
def routine (body : Memory → World → List Term → Allocating Term) : Routine World := fun memory world args => do
  let (result, _, blocks) ← body memory world args (memory.heap, [])
  return { result, blocks, world }

/-- A routine with one argument. -/
def routine1 (body : Memory → World → Term → Allocating Term) : Routine World :=
  routine fun memory world args =>
    match args with
    | [arg] => body memory world arg
    | _ => throw .outOfBounds

def routine2 (body : Memory → World → Term → Term → Allocating Term) : Routine World :=
  routine fun memory world args =>
    match args with
    | [first, second] => body memory world first second
    | _ => throw .outOfBounds

def routine3 (body : Memory → World → Term → Term → Term → Allocating Term) : Routine World :=
  routine fun memory world args =>
    match args with
    | [first, second, third] => body memory world first second third
    | _ => throw .outOfBounds

/-- The machine's host: the system with the runtime library. -/
def host : Host World where
  stack := system.stack
  emptyRrb := system.emptyRrb
  literal := system.literal
  malloc := system.malloc
  intern := system.intern
  lookup := system.lookup
  lookupId := system.lookupId
  text := system.text
  moduleFile := system.moduleFile
  compileFile := system.compileFile
  termPrint := system.owlTermPrint
  termsEq := system.owlTermsEq
  concat := routine2 fun _ world => system.owlConcat world
  termToString := routine1 fun memory world => system.owlTermToString world memory.statics
  listPush := routine2 fun _ _ => system.owlListPush
  listNth := routine2 fun _ _ => system.owlListNth
  listCount := routine1 fun _ _ => system.owlListCount
  listSlice := routine3 fun _ _ => system.owlListSlice
  stringSlice := routine3 fun _ world => system.owlStringSlice world
  stringCount := routine1 fun _ world => system.owlStringCount world
  stringContains := routine2 fun _ world => system.owlStringContains world
  filePwd := routine fun _ world _ => system.owlFilePwd world
  fileLs := routine1 fun _ world => system.owlFileLs world

end System

end Owl.Runtime
