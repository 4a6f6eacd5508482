import Owl.Proofs.Runtime.Linking
import Owl.Proofs.Compiler.Grammar
import Owl.Soundness.CallNames
import Owl.Soundness.Printing

/-! # Calls and captures reach the named function

The compiler writes a function's module, name and number of parameters into one text, for the header and
for every call and capture. The loader numbers the texts and keeps the last function of each number. So a
call leads to the last loaded function of exactly its module, name and arity. A capture does so where its
arity has one digit and its number fits the table: the grammar reads one digit only, and the loader narrows
the number of a capture to a byte without looking at it.
-/

namespace Owl.Format

open Owl.Compiler Owl.Runtime StateExcept

/-- A text that the parser takes as the name of a module. -/
def IsModuleName (name : Name) : Prop :=
  (∃ first ∈ name.head?, Grammar.isUppercase first) ∧ ∀ c ∈ name, isIdentifierByte c

/-- The text that stands for a function of a module with a number of parameters. -/
def linkName (module name : Name) (n : ℕ) : Bytes := fullName (qualifiedName module name) (UInt8.ofNat n)

section Names

variable {module module' name name' : Name} {n n' : ℕ}

theorem not_mem_of_identifierBytes {c : UInt8} (bytes : ∀ c ∈ name, isIdentifierByte c)
    (other : isIdentifierByte c = false) : c ∉ name := fun member => by
  have found := bytes c member
  rw [other] at found
  contradiction

private theorem append_cons_inj {first first' rest rest' : Bytes} {c : UInt8} (free : c ∉ first) (free' : c ∉ first')
    (same : first ++ c :: rest = first' ++ c :: rest') : first = first' ∧ rest = rest' := by
  induction first generalizing first' with
  | nil =>
    cases first' with
    | nil => exact ⟨rfl, (List.cons.inj same).2⟩
    | cons head tail => exact absurd List.mem_cons_self ((List.cons.inj same).1 ▸ free')
  | cons head tail ih =>
    cases first' with
    | nil => exact absurd List.mem_cons_self ((List.cons.inj same).1 ▸ free)
    | cons head' tail' =>
      obtain ⟨rfl, inner⟩ := List.cons.inj same
      obtain ⟨rfl, rest⟩ := ih (fun member => free (List.mem_cons_of_mem _ member))
        (fun member => free' (List.mem_cons_of_mem _ member)) inner
      exact ⟨rfl, rest⟩

theorem linkName_eq (module name : Name) (n : ℕ) :
    linkName module name n = module ++ 46 :: (name ++ 92 :: decimal (UInt8.ofNat n).toNat) := by
  simp [linkName, fullName, qualifiedName, show bytes "." = [46] from rfl, show bytes "\\" = [92] from rfl]

/-- Different functions have different link names. -/
private theorem linkName_inj (isModule : IsModuleName module) (isModule' : IsModuleName module')
    (isName : IsIdentifier name)
    (isName' : IsIdentifier name') (small : n < 256) (small' : n' < 256)
    (same : linkName module name n = linkName module' name' n') : module = module' ∧ name = name' ∧ n = n' := by
  rw [linkName_eq, linkName_eq] at same
  obtain ⟨rfl, inner⟩ := append_cons_inj (not_mem_of_identifierBytes isModule.2 (by decide))
    (not_mem_of_identifierBytes isModule'.2 (by decide)) same
  obtain ⟨rfl, digits⟩ := append_cons_inj (not_mem_of_identifierBytes isName.2 (by decide))
    (not_mem_of_identifierBytes isName'.2 (by decide)) inner
  refine ⟨rfl, rfl, ?_⟩
  have numbers := decimal_injective digits
  rwa [UInt8.toNat_ofNat', UInt8.toNat_ofNat', Nat.mod_eq_of_lt small, Nat.mod_eq_of_lt small'] at numbers

theorem linkName_zeroFree (isModule : IsModuleName module) (isName : IsIdentifier name) :
    0 ∉ linkName module name n := by
  have digits (k : ℕ) : (0 : UInt8) ∉ decimal k := fun member => absurd (isDigit_decimal k 0 member) (by decide)
  have inModule := @not_mem_of_identifierBytes _ 0 isModule.2 (by decide)
  have inName := @not_mem_of_identifierBytes _ 0 isName.2 (by decide)
  rw [linkName_eq]
  simp [digits, inModule, inName]

end Names

/-- A function as it is compiled in its module. -/
structure Definition where
  moduleName : Name
  source : FunctionDef
  function : Compiler.Function
  generated : generateFunction moduleName source = .ok function
  isModule : IsModuleName moduleName
  isName : IsIdentifier source.name

namespace Definition

variable (d : Definition)

/-- The items of the function, with texts as the loader reads them. -/
def items : List Layout := (functionItems d.function).map Layout.cut

def Is (module name : Name) (n : ℕ) : Prop :=
  d.moduleName = module ∧ d.source.name = name ∧ d.source.args.length = n

theorem few_args : d.source.args.length < 256 := by
  have generated := d.generated
  simp only [generateFunction, FnGenerator.new, Except.bind_eq_ok, Prod.exists, Except.pure_eq_ok] at generated
  obtain ⟨_, ⟨total, _, bound, -⟩, -⟩ := generated
  have := bindArgs_ok bound
  have := total.toNat_lt
  have : (0 : UInt8).toNat = 0 := rfl
  omega

private theorem header_eq : fullName d.function.name d.function.arity =
    linkName d.moduleName d.source.name d.source.args.length := by
  have generated := d.generated
  simp only [generateFunction, Except.bind_eq_ok, Prod.exists, Except.pure_eq_ok] at generated
  obtain ⟨_, _, _, _, _, same⟩ := generated
  rw [← same]
  rfl

theorem items_eq : d.items = .header (linkName d.moduleName d.source.name d.source.args.length) ::
    d.function.code.map fun instr => (layout instr).cut := by
  rw [items, functionItems, List.map_cons, List.map_map, header_eq, Layout.cut,
    takeWhile_zeroFree (linkName_zeroFree d.isModule d.isName)]
  rfl

theorem counted : ∀ instr ∈ d.function.code, Counted instr := generateFunction_counted d.generated

end Definition

/-- The bytecode of a module, with its functions in order; names and literals fit their length byte. -/
structure Compiles (module : ModuleDef) (definitions : List Definition) (bytecode : Bytes) : Prop where
  sources : definitions.map (fun d => (d.moduleName, d.source)) = module.functions.map fun f => (module.name, f)
  emitted : Module.emit ⟨module.name, definitions.map Definition.function⟩ = .ok bytecode
  short : ∀ entry ∈ moduleTexts ⟨module.name, definitions.map Definition.function⟩, entry.2.length < 255

/-- What is appended to the code: a function, or the call with which a run begins. -/
inductive Part where
  | definition (d : Definition)
  | entry (functionId : UInt8)

def Part.items : Part → List Layout
  | definition d => d.items
  | entry functionId => [.plain OP_CALL [0, functionId, 0, OP_EXIT, 0]]

def itemsOf (history : List Part) : List Layout := history.flatMap Part.items

/-- What the compiler makes of a module has the form that runs are made of. -/
theorem compiles_of_generate {module : ModuleDef} {compiled : Module} {bytecode : Bytes}
    (generated : generate module = .ok compiled) (emitted : compiled.emit = .ok bytecode)
    (isModule : IsModuleName module.name) (names : ∀ f ∈ module.functions, IsIdentifier f.name)
    (short : ∀ entry ∈ moduleTexts compiled, entry.2.length < 255) :
    ∃ definitions, Compiles module definitions bytecode ∧ definitions.map Definition.function = compiled.functions := by
  simp only [generate, Except.bind_eq_ok, Except.pure_eq_ok] at generated
  obtain ⟨functions, each, rfl⟩ := generated
  have all (sources : List FunctionDef) (names : ∀ f ∈ sources, IsIdentifier f.name) (functions : List Compiler.Function)
      (each : sources.mapM (generateFunction module.name) = .ok functions) : ∃ definitions : List Definition,
        definitions.map (fun d => (d.moduleName, d.source)) = sources.map (fun f => (module.name, f)) ∧
          definitions.map Definition.function = functions := by
    induction sources generalizing functions with
    | nil =>
      rw [Except.mapM_nil_eq_ok.mp each]
      exact ⟨[], rfl, rfl⟩
    | cons source sources ih =>
      obtain ⟨function, rest, one, others, rfl⟩ := Except.mapM_cons_eq_ok.mp each
      rw [List.forall_mem_cons] at names
      obtain ⟨definitions, same, rfl⟩ := ih names.2 rest others
      refine ⟨⟨module.name, source, function, one, isModule, names.1⟩ :: definitions, ?_, rfl⟩
      rw [List.map_cons, same, List.map_cons]
  obtain ⟨definitions, sources, rfl⟩ := all module.functions names functions each
  exact ⟨definitions, ⟨sources, emitted, short⟩, rfl⟩

variable {World : Type}

/-- A machine and the parts that have been appended to its code, oldest first, after any order of loads, entered
functions and instructions. Whatever is loaded has been compiled. -/
inductive Linking (host : Host World) (arena : ℕ) : Vm World → List Part → Prop where
  | new (world : World) (mem : ByteMemory) : Linking host arena (Vm.new world mem arena) []
  | load {vm vm' : Vm World} {history : List Part} {module : ModuleDef} {definitions : List Definition}
      {bytecode : Bytes} {functions : Term} : Linking host arena vm history → Compiles module definitions bytecode →
      loadModule host bytecode vm = .ok (functions, vm') →
      Linking host arena vm' (history ++ definitions.map .definition)
  | enter {vm vm' : Vm World} {history : List Part} {functionName : Bytes} : Linking host arena vm history →
      enterFunction host functionName vm = .ok ((), vm') →
      Linking host arena vm' (history ++ [.entry (UInt8.ofNat (host.lookup vm.world .functionNames functionName))])
  | step {vm vm' : Vm World} {history : List Part} {loaded : List Bytes} {modules : List (List Definition)} :
      Linking host arena vm history → step host vm = .ok ((), vm') → Loads host vm loaded vm' →
      List.Forall₂ (fun definitions bytecode => ∃ module, Compiles module definitions bytecode) modules loaded →
      Linking host arena vm' (history ++ modules.flatten.map .definition)

section Linking

variable {host : Host World} {number : World → Bytes → Option ℕ} {taken : World → ℕ → Prop} {arena : ℕ}
  {vm : Vm World} {history : List Part}

theorem itemsOf_append (first second : List Part) : itemsOf (first ++ second) = itemsOf first ++ itemsOf second :=
  List.flatMap_append

private theorem itemsOf_definitions (definitions : List Definition) : itemsOf (definitions.map .definition) =
    (definitions.flatMap fun d => functionItems d.function).map Layout.cut := by
  rw [itemsOf, List.flatMap_map, List.map_flatMap]
  rfl

theorem Compiles.readable {module : ModuleDef} {definitions : List Definition} {bytecode : Bytes}
    (compiles : Compiles module definitions bytecode) :
    Readable (definitions.flatMap fun d => functionItems d.function) bytecode := by
  have counted : ∀ function ∈ definitions.map Definition.function, ∀ instr ∈ function.code, Counted instr := by
    intro function member
    obtain ⟨d, -, rfl⟩ := List.mem_map.mp member
    exact d.counted
  have items : moduleItems ⟨module.name, definitions.map Definition.function⟩ =
      definitions.flatMap fun d => functionItems d.function := List.flatMap_map ..
  refine ⟨?_, ?_, fun item member pool text named => ?_⟩
  · rw [← items]
    exact moduleEmit_eq_ok counted compiles.emitted
  · rw [← items]
    exact moduleItems_valid counted
  · rw [← items] at member
    exact compiles.short _ (mem_moduleTexts member named)

/-- Between any two events the machine is linked. -/
theorem Linking.linked (numbers : Host.Numbers host number) (fresh : host.Fresh taken)
    (run : Linking host arena vm history) : Linked number taken (itemsOf history) vm := by
  induction run with
  | new world mem => exact linked_new world mem arena
  | load _ compiles loaded ih =>
    rw [itemsOf_append, itemsOf_definitions]
    exact loadModule_linked numbers fresh compiles.readable ih loaded
  | @enter vm vm' history functionName _ entered ih =>
    rw [itemsOf_append]
    rw [enterFunction, get_bind] at entered
    split at entered
    · cases entered
    · cases entered
      exact @Linked.append _ _ _ _ _ _ _ 0 ih (by simp) ⟨rfl, rfl⟩ trivial rfl rfl rfl
  | @step vm vm' history loaded modules _ _ loads compiled ih =>
    have readable : List.Forall₂ Readable
        (modules.map fun definitions => definitions.flatMap fun d => functionItems d.function) loaded := by
      rw [List.forall₂_map_left_iff]
      exact compiled.imp fun definitions bytecode found => found.elim fun _ compiles => compiles.readable
    have all : (modules.flatten.flatMap fun d => functionItems d.function) =
        (modules.map fun definitions => definitions.flatMap fun d => functionItems d.function).flatten := by
      simp only [List.flatMap_def, List.map_flatten, List.flatten_flatten, List.map_map]
      rfl
    rw [itemsOf_append, itemsOf_definitions, all]
    exact loads.linked numbers fresh readable ih

/-- The last definition of a module, name and arity, whose code begins at the location. -/
def Latest (history : List Part) (module name : Name) (n : ℕ) (d : Definition) (location : ℕ) : Prop :=
  ∃ earlier later, history = earlier ++ .definition d :: later ∧ d.Is module name n ∧
    (∀ other, .definition other ∈ later → ¬ other.Is module name n) ∧ location = widthOf (itemsOf earlier)

private theorem layout_ne_header (instr : Instruction) (name : Bytes) : (layout instr).cut ≠ .header name := by
  cases instr <;> simp [layout, Layout.cut]

section Headers

variable {module name : Name} {n : ℕ} (isModule : IsModuleName module) (isName : IsIdentifier name) (small : n < 256)

include isModule isName small

private theorem Definition.header_mem_iff (d : Definition) :
    Layout.header (linkName module name n) ∈ d.items ↔ d.Is module name n := by
  rw [d.items_eq, List.mem_cons]
  constructor
  · rintro (same | inside)
    · obtain ⟨sameModule, sameName, sameArity⟩ := linkName_inj isModule d.isModule isName d.isName small d.few_args
        (Layout.header.inj same)
      exact ⟨sameModule.symm, sameName.symm, sameArity.symm⟩
    · obtain ⟨instr, -, same⟩ := List.mem_map.mp inside
      exact absurd same (layout_ne_header instr _)
  · rintro ⟨rfl, rfl, rfl⟩
    exact .inl rfl

/-- The last header of a link name is the head of the last definition. -/
theorem LastHeader.latest {location : ℕ} (last : LastHeader (itemsOf history) (linkName module name n) location) :
    ∃ d, Latest history module name n d location := by
  induction history generalizing location with
  | nil =>
    obtain ⟨before, after, split, -⟩ := last
    simp [itemsOf] at split
  | cons part history ih =>
    obtain ⟨before, after, split, none, rfl⟩ := last
    have first : itemsOf (part :: history) = part.items ++ itemsOf history := List.flatMap_cons
    have deeper (front : List Layout) (rest : itemsOf history = front ++ .header (linkName module name n) :: after) :
        ∃ d, Latest (part :: history) module name n d (widthOf (part.items ++ front)) := by
      obtain ⟨d, earlier, later, rfl, is, free, same⟩ := ih ⟨front, after, rest, none, rfl⟩
      refine ⟨d, part :: earlier, later, rfl, is, free, ?_⟩
      rw [widthOf_append, same, ← widthOf_append]
      rfl
    rw [first, List.append_eq_append_iff] at split
    rcases split with ⟨front, rfl, rest⟩ | ⟨_ | ⟨head, back⟩, here, rest⟩
    · exact deeper front rest
    · rw [List.append_nil] at here
      have found := deeper [] rest.symm
      rwa [here, List.append_nil] at found
    · obtain ⟨rfl, rfl⟩ := List.cons.inj rest
      cases part with
      | entry functionId =>
        have member : Layout.header (linkName module name n) ∈ (Part.entry functionId).items := by simp [here]
        simp [Part.items] at member
      | definition d =>
        have is : d.Is module name n := (d.header_mem_iff isModule isName small).mp <| by
          rw [show d.items = _ from here]
          simp
        have empty : before = [] := by
          have inside : d.items = before ++ Layout.header (linkName module name n) :: back := here
          rw [d.items_eq] at inside
          cases before with
          | nil => rfl
          | cons item before =>
            obtain ⟨-, tail⟩ := List.cons.inj inside
            have member : Layout.header (linkName module name n) ∈ d.function.code.map fun instr => (layout instr).cut := by
              simp [tail]
            obtain ⟨instr, -, same⟩ := List.mem_map.mp member
            exact absurd same (layout_ne_header instr _)
        refine ⟨d, [], history, rfl, is, fun other member same => none ?_, by rw [empty]; rfl⟩
        refine List.mem_append_right _ (List.mem_flatMap.mpr ⟨.definition other, member, ?_⟩)
        exact (other.header_mem_iff isModule isName small).mpr same

/-- A filled entry of the table is the last definition of the name that has its number. -/
theorem Linked.entry_latest {k : ℕ} (numbers : Host.Numbers host number)
    (linked : Linked number taken (itemsOf history) vm) (known : number vm.world (linkName module name n) = some k)
    (filled : vm.functions k ≠ NO_FUNCTION) : ∃ d record, vm.statics (vm.functions k) = some record ∧
      Latest history module name n d record.location := by
  obtain ⟨other, record, numbered, found, last⟩ := linked.entries k filled
  obtain rfl := numbers.injective _ _ _ _ numbered known
  obtain ⟨d, latest⟩ := last.latest isModule isName small
  exact ⟨d, record, found, latest⟩

end Headers

/-- The instruction of a source call `M.f(a1, …, an)`, or of a source capture `M.f\n` with a decimal number. -/
inductive Written (module name : Name) (n : ℕ) : Instruction → Prop where
  | call {g g' : Scope} {out : VarRef} {args : List Expr} {code : Bytecode} {me : Instruction} :
      ¬ IsBuiltin name → args.length = n →
      generateExpr g out (.apply (some module) name args) = .ok (code ++ [me], g') → Written module name n me
  | capture [Grammar.Chomp] {g g' : Scope} {out : VarRef} {rest remaining : Bytes} {expr : Expr} {me : Instruction} :
      Grammar.capture (module ++ bytes "." ++ name ++ bytes "\\" ++ decimal n ++ rest) = some (expr, remaining) →
      generateExpr g out expr = .ok ([me], g') → Written module name n me

/-- A capture has an arity of one digit, and the number of its name is in the table. -/
def FitsTable (number : Bytes → Option ℕ) (module name : Name) (n : ℕ) : Instruction → Prop
  | .capture _ _ _ => n < 10 ∧ ∀ id, number (linkName module name n) = some id → id < MAX_FUNCTIONS
  | _ => True

/-- A call goes on at the location; a capture has produced a function that starts there. -/
def Arrives (me : Instruction) (vm' : Vm World) (location : ℕ) : Prop :=
  match me with
  | .capture out _ _ => ∃ function record,
      (vm'.frames vm'.currentFrame).registers (operand out).toNat = tagAs (UInt64.ofNat function) .function ∧
        vm'.statics function = some record ∧ record.location = location
  | _ => vm'.ip = location

/-- The instruction leads to the last loaded definition. Where its function is not found, it is undefined or the
module that is loaded for it stops the machine. -/
structure Follows (host : Host World) (history : List Part) (vm : Vm World) (module name : Name) (n : ℕ)
    (me : Instruction) : Prop where
  arrives : ∀ vm' loaded modules, step host vm = .ok ((), vm') → Loads host vm loaded vm' →
    List.Forall₂ (fun definitions bytecode => ∃ module, Compiles module definitions bytecode) modules loaded →
    ∃ d location, Latest (history ++ modules.flatten.map .definition) module name n d location ∧ Arrives me vm' location
  stops : ∀ vm₁ stop, loadFunction host (vm.code (vm.ip + 2)) vm₁ = .error stop →
    stop = .undefinedFunction ∨ ∃ bytecode, loadModule host bytecode vm₁ = .error stop

/-- The address of the instruction behind some parts and some instructions of the next function. -/
def siteOf (earlier : List Part) (before : Bytecode) : ℕ :=
  widthOf (itemsOf earlier) + widthOf (before.map layout)

section Written

variable {module name : Name} {n : ℕ} {me : Instruction}

private theorem call_written {g g' : Scope} {out : VarRef} {args : List Expr} {code : Bytecode}
    (ordinary : ¬ IsBuiltin name)
    (isName : IsIdentifier name)
    (accepted : generateExpr g out (.apply (some module) name args) = .ok (code ++ [me], g')) :
    args.length < 256 ∧ ∃ regs, me = .call out (qualifiedName module name) (UInt8.ofNat args.length) regs := by
  obtain ⟨notAnd, notOr⟩ : name ≠ bytes "&&" ∧ name ≠ bytes "||" := not_or.mp isName.not_shortCircuit
  rw [generateExpr.eq_def] at accepted
  simp only [notAnd, notOr, if_false, Except.bind_eq_ok, Prod.exists, Except.pure_eq_ok, Prod.mk.injEq] at accepted
  obtain ⟨res, g₁, -, operands, g₂, popped, last, g₃, applied, same, -⟩ := accepted
  obtain rfl : last = me := List.singleton_inj.mp (List.append_inj' same rfl).2
  refine ⟨(argLocations_length popped).2, operands, ?_⟩
  have absent : builtins.lookup name = none := by
    rw [IsBuiltin, Bool.not_eq_true, Option.isSome_eq_false_iff] at ordinary
    exact Option.isNone_iff_eq_none.mp ordinary
  unfold Scope.applyOp Scope.genericApply at applied
  simp only [absent, Except.ok.injEq] at applied
  exact (Prod.mk.inj applied).1.symm

private theorem modulePrefix_run [Grammar.Ascii] (isModule : IsModuleName module) (rest : Bytes) :
    Grammar.modulePrefix (module ++ 46 :: rest) = some (some module, rest) := by
  have stops : ∀ c ∈ (46 :: rest : Bytes).head?, isIdentifierByte c = false := by
    rintro c ⟨rfl⟩
    rfl
  obtain ⟨⟨first, head, upper⟩, all⟩ := isModule
  obtain ⟨tail, rfl⟩ := List.head?_eq_some_iff.mp head
  have peeked : Grammar.Chomp.peekNext (first :: tail ++ 46 :: rest) = some (first, first :: tail ++ 46 :: rest) := rfl
  have reads : Grammar.capitalizedIdent (first :: tail ++ 46 :: rest) = some (first :: tail, 46 :: rest) := by
    rw [Grammar.capitalizedIdent, Grammar.identOf, Parser.bind_some peeked, if_pos upper]
    exact Grammar.takeWhile1_append (List.cons_ne_nil _ _) all stops
  rw [Grammar.modulePrefix, Parser.bind_some reads,
    Parser.bind_some (show Grammar.Chomp.string (bytes ".") (46 :: rest) = some (bytes ".", rest) from
      Grammar.string_append [46] rest)]
  rfl

/-- The arity of a capture is the first digit of its number. -/
private theorem capture_written [chomp : Grammar.Chomp] {g g' : Scope} {out : VarRef} {rest remaining : Bytes} {expr : Expr}
    (isModule : IsModuleName module) (isName : IsIdentifier name)
    (reads : Grammar.capture (module ++ bytes "." ++ name ++ bytes "\\" ++ decimal n ++ rest) = some (expr, remaining))
    (accepted : generateExpr g out expr = .ok ([me], g')) :
    ∃ arity, (n < 10 → arity = UInt8.ofNat n) ∧ me = .capture out (qualifiedName module name) arity := by
  obtain ⟨ascii, rfl⟩ := chomp.exists_ascii
  have whole : module ++ bytes "." ++ name ++ bytes "\\" ++ decimal n ++ rest =
      module ++ 46 :: (name ++ 92 :: (decimal n ++ rest)) := by
    simp [show bytes "." = [46] from rfl, show bytes "\\" = [92] from rfl]
  have stops : ∀ c ∈ (92 :: (decimal n ++ rest) : Bytes).head?, isIdentifierByte c = false := by
    rintro c ⟨rfl⟩
    rfl
  obtain ⟨first, digits, split⟩ : ∃ first digits, decimal n = first :: digits := by
    cases split : decimal n with
    | nil => exact absurd split (by simp [decimal])
    | cons first digits => exact ⟨first, digits, rfl⟩
  have digit : Grammar.isDigit first := isDigit_decimal n first (by simp [split])
  have arity : Grammar.arity (decimal n ++ rest) = some (first - 48, digits ++ rest) := by
    have taken : Grammar.Chomp.satisfy Grammar.isDigit (first :: (digits ++ rest)) =
        some (first, digits ++ rest) := if_pos digit
    rw [split, List.cons_append, Grammar.arity, Parser.bind_some taken]
    rfl
  have prefixed : Grammar.Chomp.option Grammar.modulePrefix none (module ++ 46 :: (name ++ 92 :: (decimal n ++ rest))) =
      some (some module, name ++ 92 :: (decimal n ++ rest)) := Parser.or_some (modulePrefix_run isModule _)
  rw [whole, Grammar.capture, Parser.bind_some prefixed,
    Parser.bind_some (Grammar.identifier_run isName stops), Parser.bind_some (Grammar.token_self 92 _),
    Parser.bind_some arity] at reads
  cases reads
  cases accepted
  refine ⟨first - 48, fun single => ?_, rfl⟩
  have only : decimal n = [UInt8.ofNat (48 + n)] := by rw [decimal_eq, if_pos single]
  obtain ⟨rfl, -⟩ := List.cons.inj (split.symm.trans only)
  have value : ∀ k < 10, UInt8.ofNat (48 + k) - 48 = UInt8.ofNat k := by decide
  exact value n single

end Written

/-- The world has come about through what the system and the library do. -/
def SameSystem (host : Host World) (vm vm' : Vm World) : Prop := host.Reaches vm.world vm'.world

private theorem rounds_reaches {loader loader' : Loader World} (rounds : Rounds host loader loader') :
    SameSystem host loader.vm loader'.vm := by
  induction rounds with
  | refl => exact .refl
  | tail _ last ih =>
    refine Relation.ReflTransGen.trans ih ?_
    rcases (loadStep_round _ _ _ last).1 with ⟨_, wrote⟩ | ⟨_, world, published⟩
    · exact wrote.world
    · exact published.before.trans (.head (.malloc world) published.after)

instance : Std.Refl (SameSystem host) := ⟨fun _ => .refl⟩

instance : IsTrans (Vm World) (SameSystem host) := ⟨fun _ _ _ => Relation.ReflTransGen.trans⟩

private theorem step_reaches : Preserves (SameSystem host) (step host) := by
  refine step_keeps ⟨fun _ _ _ _ _ _ => .refl, fun _ _ evolves => .single evolves, fun bytecode vm _ vm' run => ?_⟩
  obtain ⟨final, rounds, -, -, rfl⟩ := loadModule_rounds run
  exact rounds_reaches rounds

theorem Layout.width_cut (item : Layout) : item.cut.width = item.width := by
  cases item <;> rfl

/-- An instruction of a definition stands at its site. -/
theorem itemsOf_site {earlier later : List Part} {d : Definition} {before after : Bytecode} {me : Instruction}
    (code : d.function.code = before ++ me :: after) : ∃ front back,
      itemsOf (earlier ++ .definition d :: later) = front ++ (layout me).cut :: back ∧
        widthOf front = siteOf earlier before := by
  refine ⟨itemsOf earlier ++ .header (linkName d.moduleName d.source.name d.source.args.length) ::
    before.map fun instr => (layout instr).cut, (after.map fun instr => (layout instr).cut) ++ itemsOf later, ?_, ?_⟩
  · have here : itemsOf (.definition d :: later) = d.items ++ itemsOf later := List.flatMap_cons
    rw [itemsOf_append, here, d.items_eq, code]
    simp
  · have header : (Layout.header (linkName d.moduleName d.source.name d.source.args.length)).width = 0 := rfl
    rw [widthOf_append, widthOf_cons, header, Nat.zero_add, siteOf]
    simp [widthOf, Layout.width_cut, Function.comp_def]

theorem byte_at {memory : ByteMemory} {address width i : ℕ} {bytes : Bytes} {byte : UInt8}
    (held : memory.readBytes address width = bytes) (found : bytes[i]? = some byte) (inside : i < width) :
    memory (address + i) = byte := by
  rw [← held, ByteMemory.readBytes_getElem? inside] at found
  exact Option.some.inj found

section Follow

variable {module name : Name} {n : ℕ} {me : Instruction}

/-- What the byte behind an instruction leads to, from its number on. -/
private theorem follows_of_number {k : ℕ} (numbers : Host.Numbers host number) (fresh : host.Fresh taken)
    (run : Linking host arena vm history) (isModule : IsModuleName module) (isName : IsIdentifier name)
    (small : n < 256) (known : number vm.world (linkName module name n) = some k) (inTable : k < MAX_FUNCTIONS)
    (byte : (vm.code (vm.ip + 2)).toNat = k)
    (executes : ∀ vm', step host vm = .ok ((), vm') → vm'.functions k ≠ NO_FUNCTION ∧
      ∀ record, vm'.statics (vm'.functions k) = some record → Arrives me vm' record.location) :
    Follows host history vm module name n me where
  arrives vm' loaded modules stepped loads compiled := by
    have linked := (run.step stepped loads compiled).linked numbers fresh
    have known' := numbers.reaches (step_reaches _ _ _ stepped) known
    obtain ⟨filled, arrives⟩ := executes vm' stepped
    obtain ⟨d, record, found, latest⟩ := linked.entry_latest isModule isName small numbers known' filled
    exact ⟨d, record.location, latest, arrives record found⟩
  stops vm₁ stop stopped := loadFunction_error (byte ▸ inTable) stopped

/-- In every machine that loads and instructions lead to, in whatever order, a call of a function by module and
name leads to the last loaded definition of exactly that module, name and arity, or finds none; and so does a
capture whose arity is one digit and whose name has a number in the table. -/
theorem links_named {earlier later : List Part} {d : Definition} {before after : Bytecode}
    (numbers : Host.Numbers host number) (fresh : host.Fresh taken) (run : Linking host arena vm history)
    (isModule : IsModuleName module) (isName : IsIdentifier name) (place : history = earlier ++ .definition d :: later)
    (code : d.function.code = before ++ me :: after) (here : vm.ip = siteOf earlier before)
    (written : Written module name n me) (fits : FitsTable (number vm.world) module name n me) :
    Follows host history vm module name n me := by
  obtain ⟨front, back, split, address⟩ := @itemsOf_site earlier later d before after me code
  rw [← place] at split
  obtain ⟨id, held, named⟩ := (run.linked numbers fresh).sites _ _ _ split
  rw [address, ← here] at held
  have zeroFree := takeWhile_zeroFree (@linkName_zeroFree _ _ n isModule isName)
  cases written with
  | @call _ _ out args _ _ ordinary length accepted =>
    obtain ⟨small, regs, rfl⟩ := call_written ordinary isName accepted
    have cut : (layout (.call out (qualifiedName module name) (UInt8.ofNat args.length) regs)).cut =
        .call (operand out) (linkName module name n) (operands regs) := by
      subst length
      exact congrArg (Layout.call (operand out) · (operands regs)) zeroFree
    rw [cut] at held named
    obtain ⟨k, known, rfl, inTable⟩ := named
    have opcode : vm.code vm.ip = OP_CALL := byte_at held (show _[0]? = _ from rfl) (by simp [Layout.width, Layout.loaded])
    have second : vm.code (vm.ip + 2) = UInt8.ofNat k :=
      byte_at held (show _[2]? = _ from rfl) (by simp [Layout.width, Layout.loaded])
    have byte : (vm.code (vm.ip + 2)).toNat = k := by
      rw [second, UInt8.toNat_ofNat', Nat.mod_eq_of_lt (by rw [MAX_FUNCTIONS] at inTable; omega)]
    refine follows_of_number numbers fresh run isModule isName (length ▸ small) known inTable byte fun vm' stepped => ?_
    have ran : opCall host vm = .ok ((), vm') := step_runs stepped opcode (by simp [handlers])
    have entry := opCall_entry ran
    rwa [byte] at entry
  | @capture _ _ _ out _ _ _ _ reads accepted =>
    obtain ⟨arity, digit, rfl⟩ := capture_written isModule isName reads accepted
    obtain rfl := digit fits.1
    have cut : (layout (.capture out (qualifiedName module name) (UInt8.ofNat n))).cut =
        .capture (operand out) (linkName module name n) := congrArg (Layout.capture (operand out)) zeroFree
    rw [cut] at held named
    obtain ⟨k, known, rfl⟩ := named
    have inTable := fits.2 k known
    have opcode : vm.code vm.ip = OP_CAPTURE := byte_at held (show _[0]? = _ from rfl)
      (by simp [Layout.width, Layout.loaded])
    have first : vm.code (vm.ip + 1) = operand out := byte_at held (show _[1]? = _ from rfl)
      (by simp [Layout.width, Layout.loaded])
    have second : vm.code (vm.ip + 2) = UInt8.ofNat k := byte_at held (show _[2]? = _ from rfl)
      (by simp [Layout.width, Layout.loaded])
    have byte : (vm.code (vm.ip + 2)).toNat = k := by
      rw [second, UInt8.toNat_ofNat', Nat.mod_eq_of_lt (by rw [MAX_FUNCTIONS] at inTable; omega)]
    refine follows_of_number numbers fresh run isModule isName (by have := fits.1; omega) known inTable byte
      fun vm' stepped => ?_
    have ran : opCapture host vm = .ok ((), vm') := step_runs stepped opcode (by simp [handlers])
    have entry := opCapture_entry ran
    rw [byte, first] at entry
    exact ⟨entry.1, fun record found => ⟨_, record, entry.2, found, rfl⟩⟩

end Follow

/-- A capture whose function is in the table loads nothing. -/
private theorem opCapture_loads {vm' : Vm World} {done : Unit}
    (filled : vm.functions (vm.code (vm.ip + 2)).toNat ≠ NO_FUNCTION)
    (run : opCapture host vm = .ok (done, vm')) : Loads host vm [] vm' := by
  rw [opCapture, nextByte_bind, nextByte_bind] at run
  obtain ⟨function, vm₁, loaded, run⟩ := bind_eq_ok.mp run
  obtain ⟨entry, _, looked, loaded⟩ := bind_eq_ok.mp loaded
  obtain ⟨rfl, rfl⟩ := functionEntry_ok looked
  rw [if_pos filled] at loaded
  cases loaded
  obtain ⟨_, vm₂, stored, finish⟩ := bind_eq_ok.mp run
  rw [setReg_run] at stored
  split at stored
  · cases stored
  · cases stored
    cases finish
    exact .none rfl rfl rfl rfl .refl

end Linking

/-- The number of a text in the table of the names. -/
def numberOf (tables : Tables) (text : Bytes) : Option ℕ := (tables.functionNames.findIdx? (· = text)).map (· + 1)

theorem freshHost_numbers : Host.Numbers freshHost numberOf where
  interned tables text := by
    simp only [freshHost, freshSystem, referenceSystem, System.host, Tables.intern, Tables.texts]
    split
    · next index found => simp only [numberOf, found, Option.map_some]
    · next none =>
      simp only [numberOf, Tables.setTexts, List.findIdx?_append, none]
      simp
  injective tables text text' id first second := by
    simp only [numberOf, Option.map_eq_some_iff] at first second
    obtain ⟨index, found, rfl⟩ := first
    obtain ⟨index', found', same⟩ := second
    obtain rfl : index' = index := by omega
    obtain ⟨_, is, -⟩ := List.findIdx?_eq_some_iff_getElem.mp found
    obtain ⟨_, is', -⟩ := List.findIdx?_eq_some_iff_getElem.mp found'
    exact (of_decide_eq_true is).symm.trans (of_decide_eq_true is')
  kept tables tables' text id evolves known := by
    obtain rfl | ⟨pool, other, rfl⟩ | rfl := freshHost_evolves evolves
    · exact known
    · simp only [Tables.intern]
      split
      · exact known
      · cases pool with
        | internPool => exact known
        | functionNames =>
          simp only [numberOf, Option.map_eq_some_iff] at known ⊢
          obtain ⟨index, found, rfl⟩ := known
          refine ⟨index, ?_, rfl⟩
          simp only [Tables.setTexts, Tables.texts, List.findIdx?_append, found, Option.some_or]
    · exact known

/-- `fn two() { M.one() }  fn one() { 1 }`. -/
def callingModule : ModuleDef where
  name := bytes "M"
  functions := [
    { name := bytes "two", args := [], body := [.apply (some (bytes "M")) (bytes "one") []] },
    { name := bytes "one", args := [], body := [.int (bytes "1")] }]

private theorem identifiers_of_bytes {functions : List FunctionDef}
    (all : ∀ f ∈ functions, f.name.head?.any isLowercase ∧ f.name.all isIdentifierByte) :
    ∀ f ∈ functions, IsIdentifier f.name :=
  fun f member => isIdentifier_of_bytes (all f member).1 (all f member).2

theorem isModule_M : IsModuleName (bytes "M") := ⟨⟨77, rfl, rfl⟩, List.all_eq_true.mp (by decide)⟩

/-- The call of `one` at the start of a new machine. -/
theorem links_named_call : ∃ vm vm' history, Linking freshHost 4096 vm history ∧ step freshHost vm = .ok ((), vm') ∧
    Follows freshHost history vm (bytes "M") (bytes "one") 0 (.call (.register 0) (bytes "M.one") 0 []) := by
  have ran : (loadModule freshHost (bytecodeOf callingModule) (Vm.new .empty (fun _ => 0) 4096)).toOption.any
      fun loaded => loaded.2.ip = 0 ∧ (step freshHost loaded.2).toOption.isSome := by decide +kernel
  simp only [Option.any_eq_true, decide_eq_true_eq, Option.isSome_iff_exists] at ran
  obtain ⟨⟨functions, vm⟩, loaded, start, ⟨⟨⟩, vm'⟩, stepped⟩ := ran
  obtain ⟨definitions, compiles, codes⟩ :=
    compiles_of_generate (show generate callingModule = .ok _ from rfl) rfl isModule_M (identifiers_of_bytes (by decide))
      (by decide)
  obtain ⟨d, rest, rfl⟩ : ∃ d rest, definitions = d :: rest := by
    cases definitions with
    | nil => cases codes
    | cons d rest => exact ⟨d, rest, rfl⟩
  have code : d.function.code = [] ++ Instruction.call (.register 0) (bytes "M.one") 0 [] :: [.return] :=
    congrArg Compiler.Function.code (List.cons.inj codes).1
  have run : Linking freshHost 4096 vm (.definition d :: rest.map .definition) :=
    (Linking.new _ _).load compiles (Except.toOption_eq_some.mp loaded)
  have written : Written (bytes "M") (bytes "one") 0 (.call (.register 0) (bytes "M.one") 0 []) :=
    @Written.call _ _ _ plainScope plainScope (.register 0) [] [] _ (by decide) rfl (by decide)
  exact ⟨vm, vm', _, run, Except.toOption_eq_some.mp stepped,
    @links_named _ _ _ _ _ _ _ _ _ _ _ [] _ d [] _ freshHost_numbers freshHost_fresh run isModule_M
      (isIdentifier_of_bytes (by decide) (by decide)) rfl code start written trivial⟩

/-- `fn g() { M.f\10 }  fn f(a) { a }  fn f(a, b, c, d, e, h, i, j, k, l) { a }`, as the grammar reads it. -/
def capturingModule : ModuleDef where
  name := bytes "M"
  functions := [
    { name := bytes "g", args := [], body := [.capture (some (bytes "M")) (bytes "f") 1, .int (bytes "0")] },
    { name := bytes "f", args := [bytes "a"], body := [.ident (bytes "a")] },
    { name := bytes "f", args := ["a", "b", "c", "d", "e", "h", "i", "j", "k", "l"].map bytes
      body := [.ident (bytes "a")] }]

/-- The capture of the function with ten parameters produces the one with one parameter. -/
theorem links_named_fails : ¬ ∀ (vm : Vm Tables) (history earlier later : List Part) (d : Definition)
    (before after : Bytecode) (me : Instruction) (module name : Name) (n : ℕ), Linking freshHost 4096 vm history →
    IsModuleName module → IsIdentifier name → history = earlier ++ .definition d :: later →
    d.function.code = before ++ me :: after → vm.ip = siteOf earlier before → Written module name n me →
    Follows freshHost history vm module name n me := by
  intro claimed
  have ran : (loadModule freshHost (bytecodeOf capturingModule) (Vm.new .empty (fun _ => 0) 4096)).toOption.any
      fun loaded => loaded.2.ip = 0 ∧ loaded.2.functions (loaded.2.code 2).toNat ≠ NO_FUNCTION ∧
        loaded.2.code 0 = OP_CAPTURE ∧ (step freshHost loaded.2).toOption.any fun stepped =>
          stepped.2.world.allocated = 3 ∧ ∀ k < 3, (stepped.2.statics (2 ^ 26 + 32 * k)).any (fun r => r.location = 12) →
            (stepped.2.frames stepped.2.currentFrame).registers 0 ≠ tagAs (UInt64.ofNat (2 ^ 26 + 32 * k)) .function := by
    decide +kernel
  simp only [Option.any_eq_true, decide_eq_true_eq] at ran
  obtain ⟨⟨functions, vm⟩, loaded, start, filled, opcode, ⟨⟨⟩, vm'⟩, stepped, three, apart⟩ := ran
  have steps : step freshHost vm = .ok ((), vm') := Except.toOption_eq_some.mp stepped
  obtain ⟨definitions, compiles, codes⟩ :=
    compiles_of_generate (show generate capturingModule = .ok _ from rfl) rfl isModule_M
      (identifiers_of_bytes (by decide)) (by decide)
  obtain ⟨d₁, d₂, d₃, rfl⟩ : ∃ d₁ d₂ d₃, definitions = [d₁, d₂, d₃] := by
    have three := congrArg List.length codes
    rw [List.length_map] at three
    exact List.length_eq_three.mp three
  obtain ⟨code₁, codes⟩ := List.cons.inj codes
  obtain ⟨code₂, -⟩ := List.cons.inj codes
  obtain ⟨source₁, sources⟩ := List.cons.inj compiles.sources
  obtain ⟨source₂, -⟩ := List.cons.inj sources
  have run : Linking freshHost 4096 vm [.definition d₁, .definition d₂, .definition d₃] :=
    (Linking.new _ _).load compiles (Except.toOption_eq_some.mp loaded)
  have written : Written (bytes "M") (bytes "f") 10 (.capture (.register 0) (bytes "M.f") 1) :=
    @Written.capture _ _ _ .standard plainScope plainScope (.register 0) [] (bytes "0")
      (.capture (some (bytes "M")) (bytes "f") 1) _ rfl rfl
  have code : d₁.function.code = [] ++ Instruction.capture (.register 0) (bytes "M.f") 1 ::
      [.storeInt (.register 0) 0, .return] := congrArg Compiler.Function.code code₁
  have follows := claimed vm _ [] [.definition d₂, .definition d₃] d₁ [] _ _ _ _ _ run isModule_M
    (isIdentifier_of_bytes (by decide) (by decide)) rfl code start written
  have atStart : vm.ip = 0 := start
  have here : vm.code vm.ip = OP_CAPTURE := by rwa [atStart]
  have ran : opCapture freshHost vm = .ok ((), vm') := step_runs steps here (by simp [handlers])
  have loads : Loads freshHost vm [] vm' := opCapture_loads (by rwa [atStart]) ran
  obtain ⟨d, location, latest, function, record, stored, found, same⟩ := follows.arrives vm' [] [] steps loads .nil
  have place : location = 12 := by
    have width₁ : widthOf d₁.items = 8 := by rw [Definition.items, code₁]; decide
    have width₂ : widthOf d₂.items = 4 := by rw [Definition.items, code₂]; decide
    obtain ⟨earlier, later, split, is, free, rfl⟩ := latest
    rcases earlier with _ | ⟨part₁, _ | ⟨part₂, _ | ⟨part₃, earlier⟩⟩⟩
    · obtain ⟨first, -⟩ := List.cons.inj split
      obtain rfl := Part.definition.inj first
      exact absurd (is.2.2.symm.trans (congrArg (fun s => s.2.args.length) source₁)) (by decide)
    · obtain ⟨-, rest⟩ := List.cons.inj split
      obtain ⟨second, -⟩ := List.cons.inj rest
      obtain rfl := Part.definition.inj second
      exact absurd (is.2.2.symm.trans (congrArg (fun s => s.2.args.length) source₂)) (by decide)
    · obtain ⟨rfl, rest⟩ := List.cons.inj split
      obtain ⟨rfl, -⟩ := List.cons.inj rest
      simp [itemsOf, Part.items, width₁, width₂]
    · simp at split
  have linked := (@Linking.step _ _ _ _ _ _ _ [] run steps loads .nil).linked freshHost_numbers freshHost_fresh
  obtain ⟨k, inside, rfl⟩ := linked.owned function (by rw [found]; rfl)
  rw [three] at inside
  exact apart k inside ⟨record, found, same.trans place⟩ stored

end Owl.Format
