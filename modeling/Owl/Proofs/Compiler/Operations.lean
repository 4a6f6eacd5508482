import Owl.Proofs.Compiler.Registers

/-! # What operations read and write

Every arm of `apply_op` builds one instruction from a prefix of its operand list, and the only
register an instruction writes is its destination.
-/

namespace Owl.Compiler

/-- The registers of an instruction that hold generated arguments. -/
def Instruction.operands : Instruction → List VarRef
  | exit reg | print reg => [reg]
  | add _ x y | sub _ x y | concat _ x y | eq _ x y | notEq _ x y | greaterThan _ x y => [x, y]
  | tupleNth _ x y | listNth _ x y | stringContains _ x y => [x, y]
  | not _ x | fileLs _ x | listCount _ x | stringCount _ x | codeLoad _ x => [x]
  | functionName _ x | toString _ x => [x]
  | listSlice _ x y z | stringSlice _ x y z => [x, y, z]
  | call _ _ _ regs | callLocal _ _ regs | tuple _ _ regs | list _ _ regs => regs
  | _ => []

/-- Calls, tuples and lists carry an operand for every argument. -/
def Instruction.variadic : Instruction → Bool
  | call _ _ _ _ | callLocal _ _ _ | tuple _ _ _ | list _ _ _ => true
  | _ => false

/-- The destination of an instruction; for a call it is written when the callee returns. -/
def Instruction.writes : Instruction → Option VarRef
  | exit _ | print _ | test _ _ | .return | jmp _ => none
  | storeInt dst _ | add dst _ _ | sub dst _ _ | call dst _ _ _ | mov dst _ | tuple dst _ _ => dst
  | tupleNth dst _ _ | list dst _ _ | listNth dst _ _ | storeTrue dst | storeFalse dst => dst
  | storeNil dst | eq dst _ _ | notEq dst _ _ | not dst _ | greaterThan dst _ _ => dst
  | loadString dst _ | filePwd dst | fileLs dst _ | concat dst _ _ | capture dst _ _ => dst
  | callLocal dst _ _ | listCount dst _ | listSlice dst _ _ _ | stringSlice dst _ _ _ => dst
  | codeLoad dst _ | functionName dst _ | stringCount dst _ | stringContains dst _ _ => dst
  | toString dst _ | anonFn dst _ _ _ | gcCollect dst => dst

/-- References that are neither written nor generated for the instruction: moved, tested, called or
captured. -/
def Instruction.sources : Instruction → List VarRef
  | mov _ src => [src]
  | test reg _ => [reg]
  | callLocal _ funcLoc _ => [funcLoc]
  | anonFn _ _ _ upvals => upvals
  | _ => []

/-- Every instruction of an emitter has a property. -/
def Emitter.Always (property : Instruction → Prop) (emitter : Emitter) : Prop :=
  ∀ retLoc args instr, emitter retLoc args = .ok instr → property instr

section Always

variable {property : Instruction → Prop}

theorem nullary_always {instr : VarRef → Instruction} (holds : ∀ x, property (instr x)) :
    (nullary instr).Always property := by
  intro retLoc args result success
  exact Except.ok.inj success ▸ holds retLoc

theorem unary_always {instr : VarRef → VarRef → Instruction} (holds : ∀ dst x, property (instr dst x)) :
    (unary instr).Always property := by
  intro retLoc args result success
  obtain ⟨x, -, same⟩ := Except.bind_eq_ok.mp success
  exact Except.ok.inj same ▸ holds retLoc x

theorem binary_always {instr : VarRef → VarRef → VarRef → Instruction}
    (holds : ∀ dst x y, property (instr dst x y)) : (binary instr).Always property := by
  intro retLoc args result success
  simp only [binary, Except.bind_eq_ok, Except.pure_eq_ok] at success
  obtain ⟨x, -, y, -, rfl⟩ := success
  exact holds retLoc x y

theorem ternary_always {instr : VarRef → VarRef → VarRef → VarRef → Instruction}
    (holds : ∀ dst x y z, property (instr dst x y z)) : (ternary instr).Always property := by
  intro retLoc args result success
  simp only [ternary, Except.bind_eq_ok, Except.pure_eq_ok] at success
  obtain ⟨x, -, y, -, z, -, rfl⟩ := success
  exact holds retLoc x y z

end Always

/-- The two built-in operations whose instruction has no operand. -/
def TakesNoOperand (name : Name) : Prop := name = bytes "file_pwd" ∨ name = bytes "gc_collect"

instance (name : Name) : Decidable (TakesNoOperand name) := inferInstanceAs (Decidable (_ ∨ _))

@[simp] theorem arg_nil (i : ℕ) : arg [] i = .error .indexOutOfBounds := by simp [arg]

@[simp] theorem arg_cons_zero (reg : VarRef) (regs : List VarRef) : arg (reg :: regs) 0 = .ok reg := by
  simp [arg]

@[simp] theorem arg_cons_succ (reg : VarRef) (regs : List VarRef) (i : ℕ) :
    arg (reg :: regs) (i + 1) = arg regs i := by
  simp [arg]

/-- What an arm of `apply_op` does with its return location and its operand list. -/
structure Emitter.Sound (name : Name) (emitter : Emitter) : Prop where
  operands : ∀ retLoc args instr, emitter retLoc args = .ok instr → instr.operands <+: args
  variadic : ∀ retLoc args instr, emitter retLoc args = .ok instr → instr.variadic = false
  writes : ∀ retLoc args instr, emitter retLoc args = .ok instr →
    ∀ reg, instr.writes = some reg → reg = retLoc
  takes : ∀ retLoc args instr, emitter retLoc args = .ok instr →
    (instr.operands = [] ↔ TakesNoOperand name)

/-- An arm that always succeeds in the same way on an operand list of the right length. -/
theorem Emitter.Sound.of_shape {name : Name} {emitter : Emitter} (arity : ℕ)
    (takes : TakesNoOperand name ↔ arity = 0)
    (shape : ∀ retLoc args instr, emitter retLoc args = .ok instr →
      arity ≤ args.length ∧ instr.operands = args.take arity ∧ instr.variadic = false ∧
        ∀ reg, instr.writes = some reg → reg = retLoc) : emitter.Sound name where
  operands retLoc args instr success := (shape _ _ _ success).2.1 ▸ List.take_prefix _ _
  variadic retLoc args instr success := (shape _ _ _ success).2.2.1
  writes retLoc args instr success := (shape _ _ _ success).2.2.2
  takes retLoc args instr success := by
    obtain ⟨enough, operands, -⟩ := shape _ _ _ success
    rw [takes, operands, ← List.length_eq_zero_iff, List.length_take]
    omega

private theorem effect_sound {name : Name} {instr : VarRef → Instruction} (takes : ¬ TakesNoOperand name)
    (shape : ∀ x, (instr x).operands = [x] ∧ (instr x).variadic = false ∧ (instr x).writes = none) :
    Emitter.Sound name (effect instr) := by
  refine .of_shape 1 (by simpa using takes) (fun retLoc args result success => ?_)
  rcases args with _ | ⟨x, rest⟩
  · simp [effect, bind, Except.bind] at success
  · cases success
    simp [shape x]

private theorem nullary_sound {name : Name} {instr : VarRef → Instruction} (takes : TakesNoOperand name)
    (shape : ∀ dst, (instr dst).operands = [] ∧ (instr dst).variadic = false ∧
      (instr dst).writes = some dst) : Emitter.Sound name (nullary instr) := by
  refine .of_shape 0 (by simpa using takes) (fun retLoc args result success => ?_)
  cases success
  simp [shape retLoc]

private theorem unary_sound {name : Name} {instr : VarRef → VarRef → Instruction}
    (takes : ¬ TakesNoOperand name) (shape : ∀ dst x, (instr dst x).operands = [x] ∧
      (instr dst x).variadic = false ∧ (instr dst x).writes = some dst) :
    Emitter.Sound name (unary instr) := by
  refine .of_shape 1 (by simpa using takes) (fun retLoc args result success => ?_)
  rcases args with _ | ⟨x, rest⟩
  · simp [unary, bind, Except.bind] at success
  · cases success
    simp [shape retLoc x]

private theorem binary_sound {name : Name} {instr : VarRef → VarRef → VarRef → Instruction}
    (takes : ¬ TakesNoOperand name) (shape : ∀ dst x y, (instr dst x y).operands = [x, y] ∧
      (instr dst x y).variadic = false ∧ (instr dst x y).writes = some dst) :
    Emitter.Sound name (binary instr) := by
  refine .of_shape 2 (by simpa using takes) (fun retLoc args result success => ?_)
  rcases args with _ | ⟨x, _ | ⟨y, rest⟩⟩
  · simp [binary, bind, Except.bind] at success
  · simp [binary, bind, Except.bind] at success
  · cases success
    simp [shape retLoc x y]

private theorem ternary_sound {name : Name} {instr : VarRef → VarRef → VarRef → VarRef → Instruction}
    (takes : ¬ TakesNoOperand name) (shape : ∀ dst x y z, (instr dst x y z).operands = [x, y, z] ∧
      (instr dst x y z).variadic = false ∧ (instr dst x y z).writes = some dst) :
    Emitter.Sound name (ternary instr) := by
  refine .of_shape 3 (by simpa using takes) (fun retLoc args result success => ?_)
  rcases args with _ | ⟨x, _ | ⟨y, _ | ⟨z, rest⟩⟩⟩
  · simp [ternary, bind, Except.bind] at success
  · simp [ternary, bind, Except.bind] at success
  · simp [ternary, bind, Except.bind] at success
  · cases success
    simp [shape retLoc x y z]

private theorem builtins_sound : ∀ entry ∈ builtins, entry.2.Sound entry.1 := by
  simp only [builtins, List.forall_mem_cons, List.not_mem_nil, false_imp_iff, implies_true,
    and_true]
  refine ⟨?_, ?_, ?_, ?_, ?_, ?_, ?_, ?_, ?_, ?_, ?_, ?_, ?_, ?_, ?_, ?_, ?_, ?_, ?_, ?_, ?_, ?_⟩
  all_goals first
    | exact binary_sound (by decide) fun _ _ _ => ⟨rfl, rfl, rfl⟩
    | exact unary_sound (by decide) fun _ _ => ⟨rfl, rfl, rfl⟩
    | exact ternary_sound (by decide) fun _ _ _ _ => ⟨rfl, rfl, rfl⟩
    | exact nullary_sound (by decide) fun _ => ⟨rfl, rfl, rfl⟩
    | exact effect_sound (by decide) fun _ => ⟨rfl, rfl, rfl⟩

theorem builtins_sources : ∀ entry ∈ builtins, entry.2.Always fun instr => instr.sources = [] := by
  simp only [builtins, List.forall_mem_cons, List.not_mem_nil, false_imp_iff, implies_true, and_true]
  refine ⟨?_, ?_, ?_, ?_, ?_, ?_, ?_, ?_, ?_, ?_, ?_, ?_, ?_, ?_, ?_, ?_, ?_, ?_, ?_, ?_, ?_, ?_⟩
  all_goals first
    | exact binary_always fun _ _ _ => rfl
    | exact unary_always fun _ _ => rfl
    | exact ternary_always fun _ _ _ _ => rfl
    | exact nullary_always fun _ => rfl

theorem builtins_lookup_sound {name : Name} {emitter : Emitter}
    (found : builtins.lookup name = some emitter) : emitter.Sound name := by
  obtain ⟨before, after, split, -⟩ := List.lookup_eq_some_iff.mp found
  exact builtins_sound (name, emitter) (by rw [split]; simp)

def Expr.TakesNoOperand : Expr → Prop
  | .apply _ name _ => Compiler.TakesNoOperand name
  | _ => False

/-- How the last instruction of an operation uses the operand list and the output register. -/
structure Finished (e : Expr) (out : VarRef) (locations : List VarRef) (instr : Instruction) :
    Prop where
  operands : instr.operands <+: locations
  variadic : instr.variadic → instr.operands = locations
  writes : ∀ reg, instr.writes = some reg → reg = out
  takesSome : ¬ e.TakesNoOperand → locations ≠ [] → instr.operands ≠ []
  takesNone : e.TakesNoOperand → instr.operands = [] ∧ instr.variadic = false

/-- Calls, tuples and lists take the whole operand list. -/
theorem Finished.of_variadic {e : Expr} {out : VarRef} {locations : List VarRef}
    {instr : Instruction} (all : instr.operands = locations) (dst : instr.writes = some out)
    (takes : ¬ e.TakesNoOperand) : Finished e out locations instr where
  operands := all ▸ List.prefix_refl _
  variadic _ := all
  writes _ written := Option.some.inj (written.symm.trans dst)
  takesSome _ nonempty := all ▸ nonempty
  takesNone none := absurd none takes

theorem Scope.genericApply_instr (g : Scope) (module : Option Name) (name : Name) (retLoc : VarRef)
    (args : List VarRef) (arity : UInt8) :
    (g.genericApply module name retLoc args arity).1.operands = args ∧
      (g.genericApply module name retLoc args arity).1.writes = some retLoc := by
  unfold Scope.genericApply
  generalize g.searchEnv name = found
  rcases found with ⟨_ | varRef, g₁⟩ <;> cases module <;> exact ⟨rfl, rfl⟩

theorem finishOperation_finished {g g' : Scope} {out : VarRef} {locations : List VarRef} {e : Expr}
    {instr : Instruction} (finished : finishOperation g out locations e = .ok (instr, g')) :
    Finished e out locations instr := by
  unfold finishOperation at finished
  split at finished
  · next module name args =>
    unfold Scope.applyOp at finished
    split at finished
    · next emitter found =>
      obtain ⟨result, emitted, same⟩ := Except.bind_eq_ok.mp finished
      cases same
      have sound := builtins_lookup_sound found
      have plain := sound.variadic _ _ _ emitted
      exact {
        operands := sound.operands _ _ _ emitted
        variadic := fun variadic => absurd variadic (by simp [plain])
        writes := sound.writes _ _ _ emitted
        takesSome := fun some _ none => some ((sound.takes _ _ _ emitted).mp none)
        takesNone := fun none => ⟨(sound.takes _ _ _ emitted).mpr none, plain⟩ }
    · next missing =>
      obtain ⟨all, dst⟩ := g.genericApply_instr module name out locations (UInt8.ofNat args.length)
      have applied : g.genericApply module name out locations (UInt8.ofNat args.length) = (instr, g') :=
        Except.ok.inj finished
      rw [applied] at all dst
      refine .of_variadic all dst (fun takes => ?_)
      rcases takes with rfl | rfl
      · exact absurd missing (by decide)
      · exact absurd missing (by decide)
  · cases finished; exact .of_variadic rfl rfl id
  · cases finished; exact .of_variadic rfl rfl id
  · contradiction

theorem leafInstr_writes {g g' : Scope} {out : VarRef} {e : Expr} {instr : Instruction}
    (single : leafInstr g out e = some (instr, g')) :
    instr.operands = [] ∧ instr.variadic = false ∧ instr.writes = some out := by
  unfold leafInstr at single
  split at single
  · obtain ⟨val, _, same⟩ := Option.map_eq_some_iff.mp single
    cases same
    exact ⟨rfl, rfl, rfl⟩
  · split at single
    · cases single; exact ⟨rfl, rfl, rfl⟩
    · contradiction
  all_goals first | contradiction | (cases single; exact ⟨rfl, rfl, rfl⟩)

theorem branchInstrs_writes {reg : VarRef} {thenBranch elseBranch jumps : Bytecode}
    (tested : branchInstrs reg thenBranch elseBranch = .ok jumps) :
    ∀ instr ∈ jumps, instr.operands = [] ∧ instr.variadic = false ∧ instr.writes = none := by
  obtain ⟨thenSize, sized, tested⟩ := Except.bind_eq_ok.mp tested
  by_cases nonempty : 0 < thenSize
  · simp only [if_pos nonempty, Except.bind_eq_ok, Except.pure_eq_ok] at tested
    obtain ⟨leap, jumped, closed, rfl, elseSize, elseSized, skip, skipped, rfl⟩ := tested
    simp [Instruction.operands, Instruction.variadic, Instruction.writes]
  · simp only [if_neg nonempty, Except.bind_eq_ok, Except.pure_eq_ok] at tested
    obtain ⟨closed, rfl, elseSize, elseSized, skip, skipped, rfl⟩ := tested
    simp [Instruction.operands, Instruction.variadic, Instruction.writes]

end Owl.Compiler
