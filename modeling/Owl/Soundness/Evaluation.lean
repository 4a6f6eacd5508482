import Owl.Proofs.Language.Calling

/-! # Loaded programs do what their source means

Whatever has been loaded, in whatever order, a function that is entered from outside behaves as the evaluator
says: it prints the same, allocates the same, stops in the same way or exits with the value of its body in
register zero. The evaluator calls the last loaded definition of each module, name and arity.
-/

namespace Owl.Language

open Owl.Compiler Owl.Runtime Owl.Format StateExcept

instance (ref : VarRef) : Decidable ref.InFrame :=
  match ref with
  | .register _ => decidable_of_iff _ register_inFrame.symm
  | .upvalue _ => .isTrue fun _ impossible => VarRef.noConfusion impossible

/-- The evaluator says what the code of the function does: its body is covered, and its instructions are as wide
as jumps take them to be and use registers of the frame. -/
def Supported (d : Definition) : Prop :=
  allCovered d.source.body ∧ ∀ instr ∈ d.function.code,
    instr.span = (layout instr).width ∧ ∀ ref ∈ instr.refs, ref.InFrame

instance (d : Definition) : Decidable (Supported d) := inferInstanceAs (Decidable (_ ∧ _))

instance (d : Definition) (module name : Name) (n : ℕ) : Decidable (d.Is module name n) :=
  inferInstanceAs (Decidable (_ ∧ _))

def partDefinition : Part → Option Definition
  | .definition d => some d
  | .entry _ => none

/-- The last definition of a function. -/
def lastDefinition (history : List Part) (module name : Name) (n : ℕ) : Option Definition :=
  (history.reverse.filterMap partDefinition).find? fun d => d.Is module name n

variable {World : Type}

/-- The supported functions that a machine has in its table. -/
def loadedProgram (host : Host World) (number : Bytes → Option ℕ) (functions : ℕ → ℕ) (history : List Part) :
    Program World where
  host
  definition module name n := do
    let d ← lastDefinition history module name n
    let id ← number (linkName module name n)
    if id < MAX_FUNCTIONS ∧ functions id ≠ NO_FUNCTION ∧ Supported d then some d.source else none

section Loaded

variable {host : Host World} {number : World → Bytes → Option ℕ} {taken : World → ℕ → Prop} {arena : ℕ}
  {vm : Vm World} {history : List Part} {module name : Name} {n location : ℕ} {d : Definition}

theorem Latest.lastDefinition (latest : Latest history module name n d location) :
    lastDefinition history module name n = some d := by
  obtain ⟨earlier, later, rfl, is, none, -⟩ := latest
  have free : (later.reverse.filterMap partDefinition).find? (fun d => decide (d.Is module name n)) = Option.none := by
    rw [List.find?_eq_none]
    intro other member
    obtain ⟨part, inside, same⟩ := List.mem_filterMap.mp member
    cases part with
    | entry functionId => cases same
    | definition other' =>
      obtain rfl : other' = other := Option.some.inj same
      simpa using none _ (List.mem_reverse.mp inside)
  rw [Language.lastDefinition, List.reverse_append, List.reverse_cons, List.append_assoc, List.filterMap_append,
    List.find?_append, free, Option.none_or, List.singleton_append]
  exact List.find?_cons_of_pos (decide_eq_true is)

/-- The code of a definition stands where it has been loaded. -/
theorem Latest.placed (linked : Linked number taken (itemsOf history) vm) (latest : Latest history module name n d location)
    (supported : Supported d) : Placed (number vm.world) vm.code location d.function.code := by
  obtain ⟨earlier, later, rfl, -, -, rfl⟩ := latest
  have all : ∀ after before, d.function.code = before ++ after →
      Placed (number vm.world) vm.code (widthOf (itemsOf earlier) + spanOf before) after := by
    intro after
    induction after with
    | nil => exact fun _ _ => trivial
    | cons me after ih =>
      intro before split
      have spans : widthOf (before.map layout) = spanOf before := by
        have each (instr : Instruction) (member : instr ∈ before) : (layout instr).width = instr.span :=
          (supported.2 instr (by rw [split]; exact List.mem_append_left _ member)).1.symm
        rw [widthOf, spanOf, List.map_map]
        exact congrArg List.sum (List.map_congr_left each)
      obtain ⟨front, back, place, address⟩ := @itemsOf_site earlier later d before after me split
      obtain ⟨id, held, named⟩ := linked.sites _ _ _ place
      obtain ⟨span, inFrame⟩ := supported.2 me (by rw [split]; simp)
      rw [address, siteOf, spans, Layout.width_cut, cut_loaded] at held
      refine ⟨⟨⟨id, named, held⟩, span, inFrame⟩, ?_⟩
      have rest := ih (before ++ [me]) (by rw [split, List.append_assoc]; rfl)
      rwa [spanOf_append, spanOf_cons, show spanOf [] = 0 from rfl, Nat.add_zero, ← Nat.add_assoc] at rest
  exact all d.function.code [] rfl

/-- A function of the program is a supported definition in the table. -/
structure Defines (number : Bytes → Option ℕ) (functions : ℕ → ℕ) (history : List Part) (module name : Name) (n : ℕ)
    (f : FunctionDef) (d : Definition) (id : ℕ) : Prop where
  last : lastDefinition history module name n = some d
  is : d.Is module name n
  numbered : number (linkName module name n) = some id
  inTable : id < MAX_FUNCTIONS
  filled : functions id ≠ NO_FUNCTION
  supported : Supported d
  source : d.source = f

theorem loadedProgram_defines {numbered : Bytes → Option ℕ} {functions : ℕ → ℕ} {f : FunctionDef}
    (defined : (loadedProgram host numbered functions history).definition module name n = some f) :
    ∃ d id, Defines numbered functions history module name n f d id := by
  simp only [loadedProgram, Option.bind_eq_bind, Option.bind_eq_some_iff] at defined
  obtain ⟨d, last, id, known, defined⟩ := defined
  split at defined
  · next all =>
    have is := List.find?_some (show List.find? (fun d => decide (d.Is module name n)) _ = some d from last)
    exact ⟨d, id, last, of_decide_eq_true is, known, all.1, all.2.1, all.2.2, Option.some.inj defined⟩
  · cases defined

/-- The program that a machine has loaded is installed in it. -/
theorem Linking.installed (numbers : Host.Numbers host number) (fresh : host.Fresh taken)
    (run : Linking host arena vm history) :
    Installed (number vm.world) (imageOf vm) (loadedProgram host (number vm.world) vm.functions history) := by
  have linked := run.linked numbers fresh
  refine ⟨fun module name n f defined => ?_, fun module name n f k defined known => ?_⟩
  · obtain ⟨d, _, defines⟩ := loadedProgram_defines defined
    obtain rfl := defines.source
    exact defines.is.2.2
  · obtain ⟨d, id, defines⟩ := loadedProgram_defines defined
    obtain rfl := defines.source
    obtain ⟨rfl, rfl, rfl⟩ := defines.is
    rw [takeWhile_zeroFree (linkName_zeroFree d.isModule d.isName), defines.numbered] at known
    cases known
    obtain ⟨d', record, stands, latest⟩ :=
      linked.entry_latest d.isModule d.isName d.few_args numbers defines.numbered defines.filled
    obtain rfl : d = d' := Option.some.inj (defines.last.symm.trans (Latest.lastDefinition latest))
    exact ⟨defines.filled, record, stands, defines.supported.1, d.function, d.generated,
      Latest.placed linked latest defines.supported⟩

/-- The call with which a run begins defines nothing. -/
private theorem lastDefinition_entry (history : List Part) (functionId : UInt8) (module name : Name) (n : ℕ) :
    lastDefinition (history ++ [.entry functionId]) module name n = lastDefinition history module name n := by
  rw [lastDefinition, List.reverse_append]
  rfl

/-- The machine before the call with which a run begins. -/
structure Entered (vm vm' : Vm World) (functionId : UInt8) : Prop where
  holds : Holds vm' [OP_CALL, 0, functionId, 0, OP_EXIT, 0]
  currentFrame : vm'.currentFrame = vm.currentFrame
  functions : vm'.functions = vm.functions
  store : storeOf vm' = storeOf vm

private theorem enterFunction_entered {vm' : Vm World} {functionName : Bytes}
    (entered : enterFunction host functionName vm = .ok ((), vm')) :
    Entered vm vm' (UInt8.ofNat (host.lookup vm.world .functionNames functionName)) := by
  rw [enterFunction, get_bind] at entered
  split at entered
  · cases entered
  · cases entered
    refine ⟨fun i inside => ?_, rfl, rfl, rfl⟩
    have held := ByteMemory.readBytes_writeBytes vm.code vm.codeSize
      [OP_CALL, 0, UInt8.ofNat (host.lookup vm.world .functionNames functionName), 0, OP_EXIT, 0]
    exact byte_at held (List.getElem?_eq_getElem inside) inside

private theorem exit_step {code : UInt8} (holds : Holds vm [OP_EXIT, code]) : step host vm = .error (.exit code) := by
  have read : vm.code (vm.ip + 1) = code := holds 1 (by simp)
  rw [step_eq holds.head (show (OP_EXIT, opExit) ∈ handlers host by simp [handlers]) (by decide), opExit,
    nextByte_bind, read]
  rfl

/-- A function that is entered from outside prints, allocates, stops and returns as the source says, and then the
machine exits. -/
theorem entered_evaluates {vm' : Vm World} (numbers : Host.Numbers host number) (fresh : host.Fresh taken)
    (run : Linking host arena vm history)
    (finds : ∀ text id, number vm.world text = some id → host.lookup vm.world .functionNames text = id)
    (room : vm.currentFrame < STACK_DEPTH) (entered : enterFunction host (linkName module name 0) vm = .ok ((), vm')) :
    Meets (step host) vm'
      (callFunction (loadedProgram host (number vm.world) vm.functions history) (STACK_DEPTH - 1 - vm.currentFrame)
        module name [] (storeOf vm))
      fun result vm'' => step host vm'' = .error (.exit 0) ∧ storeOf vm'' = result.2 ∧
        ∀ term, result.1 = some term → register vm'' 0 = term := by
  have installed := Linking.installed numbers fresh (run.enter entered)
  have start := enterFunction_entered entered
  have world : vm'.world = vm.world := congrArg Store.world start.store
  have same (functionId : UInt8) : loadedProgram host (number vm.world) vm.functions (history ++ [.entry functionId]) =
      loadedProgram host (number vm.world) vm.functions history := by
    simp only [loadedProgram, lastDefinition_entry]
  rw [world, start.functions, same] at installed
  cases defined : (loadedProgram host (number vm.world) vm.functions history).definition module name 0 with
  | none =>
    rw [callFunction.eq_def]
    simp only [List.length_nil, defined]
    exact .nothing
  | some f =>
    obtain ⟨d, id, defines⟩ := loadedProgram_defines defined
    obtain ⟨rfl, rfl, arity⟩ := defines.is
    have holds := start.holds
    rw [finds _ _ defines.numbered] at holds
    have numbered : number vm.world ((linkName d.moduleName d.source.name 0).takeWhile (· ≠ 0)) = some id := by
      rw [takeWhile_zeroFree (linkName_zeroFree d.isModule d.isName)]
      exact defines.numbered
    let context : Context World :=
      { host, call := callFunction (loadedProgram host (number vm.world) vm.functions history)
          (STACK_DEPTH - 1 - vm.currentFrame), moduleName := [], bound := [] }
    have meets := calls_meet installed (STACK_DEPTH - 1 - vm.currentFrame) vm.currentFrame context (by omega) rfl rfl
      vm' d.moduleName d.source.name 0 (UInt8.ofNat id) [] ⟨rfl, start.currentFrame⟩ (by simp [InFrame, REGISTER_COUNT])
      (by decide) holds.left ⟨id, numbered, rfl, defines.inTable⟩
    rw [start.store] at meets
    apply meets.mono
    rintro result vm'' - ⟨ip, keeps, store, content⟩
    have last : Holds vm'' [OP_EXIT, 0] :=
      @Holds.right _ vm' vm'' [OP_CALL, 0, UInt8.ofNat id, 0] _ holds (congrArg Image.code keeps.image) ip
    exact ⟨exit_step last, store, content⟩

end Loaded

/-- `fn main() { let x = 20  double(x, 1) }`. -/
def mainFunction : FunctionDef where
  name := bytes "main"
  args := []
  body := [.let (bytes "x") (.int (bytes "20")), .apply none (bytes "double") [.ident (bytes "x"), .int (bytes "1")]]

/-- `fn double(x, y) { if (x > y) && true { let z = x + y  z + z } else { nil } }`. -/
def doubleFunction : FunctionDef where
  name := bytes "double"
  args := [bytes "x", bytes "y"]
  body := [.if (.apply none (bytes "&&") [.apply none (bytes ">") [.ident (bytes "x"), .ident (bytes "y")], .true])
    [.let (bytes "z") (.apply none (bytes "+") [.ident (bytes "x"), .ident (bytes "y")]),
      .apply none (bytes "+") [.ident (bytes "z"), .ident (bytes "z")]]
    [.nil]]

def doublingModule : ModuleDef where
  name := bytes "M"
  functions := [mainFunction, doubleFunction]

private theorem freshHost_finds (tables : Tables) (text : Bytes) (id : ℕ) (known : numberOf tables text = some id) :
    freshHost.lookup tables .functionNames text = id := by
  simp only [numberOf, Option.map_eq_some_iff] at known
  obtain ⟨index, found, rfl⟩ := known
  simp [freshHost, freshSystem, referenceSystem, System.host, Tables.lookup, Tables.texts, found]

/-- A function as it is compiled in module `M`. -/
def definitionOf (source : FunctionDef) (accepted : (generateFunction (bytes "M") source).toOption.isSome)
    (isName : IsIdentifier source.name) : Definition where
  moduleName := bytes "M"
  source
  function := (generateFunction (bytes "M") source).toOption.get accepted
  generated := Except.toOption_eq_some.mp (Option.some_get accepted).symm
  isModule := isModule_M
  isName

def doublingDefinitions : List Definition :=
  [definitionOf mainFunction (by decide) (isIdentifier_of_bytes (by decide) (by decide)),
   definitionOf doubleFunction (by decide) (isIdentifier_of_bytes (by decide) (by decide))]

theorem doublingModule_runs : ∃ vm vm' vm'' history, Linking freshHost 4096 vm history ∧
    enterFunction freshHost (linkName (bytes "M") (bytes "main") 0) vm = .ok ((), vm') ∧
    Repeats (step freshHost) vm' vm'' ∧ step freshHost vm'' = .error (.exit 0) ∧ register vm'' 0 = intFrom 42 := by
  have compiles : Compiles doublingModule doublingDefinitions (bytecodeOf doublingModule) :=
    ⟨rfl, by rfl, by decide +kernel⟩
  have ran : (loadModule freshHost (bytecodeOf doublingModule) (Vm.new .empty (fun _ => 0) 4096)).toOption.any
      fun loaded => loaded.2.currentFrame = 0 ∧
        (enterFunction freshHost (linkName (bytes "M") (bytes "main") 0) loaded.2).toOption.isSome ∧
        (callFunction (loadedProgram freshHost (numberOf loaded.2.world) loaded.2.functions
          (doublingDefinitions.map .definition)) (STACK_DEPTH - 1) (bytes "M") (bytes "main") []
            (storeOf loaded.2)).toOption.any fun result => result.1 = some (intFrom 42) := by decide +kernel
  simp only [Option.any_eq_true, decide_eq_true_eq, Option.isSome_iff_exists] at ran
  obtain ⟨⟨functions, vm⟩, loaded, frame, ⟨⟨⟨⟩, vm'⟩, entered⟩, ⟨content, store⟩, predicted, known⟩ := ran
  have run : Linking freshHost 4096 vm (doublingDefinitions.map .definition) :=
    (Linking.new _ _).load compiles (Except.toOption_eq_some.mp loaded)
  have start := Except.toOption_eq_some.mp entered
  have meets := entered_evaluates freshHost_numbers freshHost_fresh run (freshHost_finds _)
    (by rw [show vm.currentFrame = 0 from frame]; decide) start
  rw [show vm.currentFrame = 0 from frame, Nat.sub_zero, Except.toOption_eq_some.mp predicted] at meets
  obtain ⟨vm'', rounds, exits, -, value⟩ := meets
  exact ⟨vm, vm', vm'', _, run, start, rounds, exits, value _ known⟩

end Owl.Language
