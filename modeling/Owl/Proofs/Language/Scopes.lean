import Owl.Proofs.Compiler.Coverage
import Owl.Proofs.Language.Control

/-! # Evaluations and machines

How the state of an evaluation and the state of the machine belong together between pieces of code: the store is
the same, and the variables of the scope are in their registers. What code keeps, and what it means that code
takes the machine to where an evaluation leads.
-/

namespace Owl.Language

open Owl.Compiler Owl.Runtime Owl.Format StateExcept

variable {World : Type}

/-- A machine that has gone on in the same frame, with the same code and some of the same registers. -/
structure Keeps (kept : UInt8 → Prop) (vm vm' : Vm World) : Prop where
  image : imageOf vm' = imageOf vm
  currentFrame : vm'.currentFrame = vm.currentFrame
  below : ∀ i < vm.currentFrame, vm'.frames i = vm.frames i
  retAddress : (vm'.frames vm.currentFrame).retAddress = (vm.frames vm.currentFrame).retAddress
  retRegister : (vm'.frames vm.currentFrame).retRegister = (vm.frames vm.currentFrame).retRegister
  registers : ∀ reg, kept reg → register vm' reg = register vm reg

section Keeps

variable {kept weaker : UInt8 → Prop} {vm vm₁ vm₂ : Vm World}

theorem Keeps.refl (kept : UInt8 → Prop) (vm : Vm World) : Keeps kept vm vm :=
  ⟨rfl, rfl, fun _ _ => rfl, rfl, rfl, fun _ _ => rfl⟩

theorem Keeps.trans (first : Keeps kept vm vm₁) (second : Keeps kept vm₁ vm₂) : Keeps kept vm vm₂ where
  image := second.image.trans first.image
  currentFrame := second.currentFrame.trans first.currentFrame
  below i lower := (second.below i (by rwa [first.currentFrame])).trans (first.below i lower)
  retAddress := by
    have later := second.retAddress
    rw [first.currentFrame] at later
    exact later.trans first.retAddress
  retRegister := by
    have later := second.retRegister
    rw [first.currentFrame] at later
    exact later.trans first.retRegister
  registers reg keep := (second.registers reg keep).trans (first.registers reg keep)

theorem Keeps.mono (keeps : Keeps kept vm vm₁) (implied : ∀ reg, weaker reg → kept reg) : Keeps weaker vm vm₁ :=
  { keeps with registers := fun reg keep => keeps.registers reg (implied reg keep) }

/-- An instruction that has computed a term keeps every other register. -/
private theorem finished_keeps {result : Term × Store World} (records : result.2.statics = vm.statics) (out : UInt8)
    (n : ℕ) :
    Keeps (· ≠ out) vm (finished vm out n result) where
  image := congrArg (Image.mk vm.code vm.functions) records
  currentFrame := rfl
  below i lower := Function.update_of_ne (Nat.ne_of_lt lower) ..
  retAddress := by simp only [finished, stored, withStore, Vm.setFrame, Function.update_self, Frame.setRegister]
  retRegister := by simp only [finished, stored, withStore, Vm.setFrame, Function.update_self, Frame.setRegister]
  registers reg other := (register_stored ..).trans (if_neg other)

private theorem finished_register (vm : Vm World) (out : UInt8) (n : ℕ) (result : Term × Store World) :
    register (finished vm out n result) out = result.1 := (register_stored ..).trans (if_pos rfl)

end Keeps

/-- The machine executes the given frame of the given code. -/
structure Executing (image : Image) (frame : ℕ) (vm : Vm World) : Prop where
  image : imageOf vm = image
  frame : vm.currentFrame = frame

/-- The machine has the store of an evaluation, and its variables in the registers of the scope. -/
structure Represents (g : Scope) (state : State World) (vm : Vm World) : Prop where
  store : storeOf vm = state.store
  locals : ∀ x term, state.locals.lookup x = some (some term) →
    ∃ reg, g.self.env.lookup x = some (.register reg) ∧ register vm reg = term

/-- The scope of a function that is not nested, with its variables in registers up to the counter. -/
structure Suited (context : Context World) (g : Scope) : Prop where
  parents : g.parents = []
  moduleName : g.self.moduleName = context.moduleName
  allocated : ∀ x ref, g.self.env.lookup x = some ref → Allocated g.self.varCount.toNat ref

/-- The scope has only names that the context knows. -/
def Scoped (context : Context World) (g : Scope) : Prop :=
  ∀ x ref, g.self.env.lookup x = some ref → x ∈ context.bound

/-- The second scope has the variables of the first. -/
def Grown (g g' : Scope) : Prop := ∀ x ref, g.self.env.lookup x = some ref → g'.self.env.lookup x = some ref

/-- An allocated register that no variable has. -/
structure Output (g : Scope) (out : UInt8) : Prop where
  allocated : out.toNat ≤ g.self.varCount.toNat
  free : ∀ x, g.self.env.lookup x ≠ some (.register out)

section Scopes

variable {context : Context World} {g g' : Scope} {piece : Piece} {code : Bytecode} {trace : GenTrace}
  {state state' : State World} {vm vm' : Vm World} {out : UInt8}

theorem Suited.generated (suited : Suited context g) (run : Generates g piece code g' trace)
    (within : piece.bindings.Within piece.leak) : Suited context g' where
  parents := by
    have extension := run.frame.2.2.2
    rw [suited.parents] at extension
    exact List.forall₂_nil_left_iff.mp extension
  moduleName := run.frame.2.1.trans suited.moduleName
  allocated x ref found := by
    rw [run.frame.1]
    obtain old | ⟨offset, member, k, same, position⟩ := run.variables.origin x ref found
    · exact (suited.allocated x ref old).mono (Nat.le_add_right ..)
    · have inside := within _ member
      exact ⟨k, same, by dsimp only at inside; omega⟩

theorem Output.generated (output : Output g out) (run : Generates g piece code g' trace) : Output g' out where
  allocated := by
    rw [run.frame.1]
    exact Nat.le_add_right_of_le output.allocated
  free x found := by
    obtain old | ⟨offset, member, k, same, position⟩ := run.variables.origin x _ found
    · exact output.free x old
    · have positive := run.variables.positive x offset member
      have lower := output.allocated
      cases same
      omega

/-- A new register is an output of the scope that has allocated it. -/
theorem Suited.push {reg : VarRef} (suited : Suited context g) (allocated : g.push = .ok (reg, g')) :
    ∃ out : UInt8, reg = .register out ∧ out.toNat = g.self.varCount.toNat + 1 ∧ g'.self.varCount = out ∧
      g'.self.env = g.self.env ∧ Suited context g' ∧ Output g' out := by
  obtain ⟨varCount, next, rfl, rfl⟩ := Scope.push_ok allocated
  refine ⟨varCount, rfl, next, rfl, rfl, ⟨suited.parents, suited.moduleName, fun x ref found => ?_⟩,
    Nat.le_refl _, fun x found => ?_⟩
  · exact (suited.allocated x ref found).mono (next ▸ Nat.le_succ _)
  · obtain ⟨k, same, bounded⟩ := suited.allocated x _ found
    cases same
    omega

theorem Grown.trans {g₁ : Scope} (first : Grown g g₁) (second : Grown g₁ g') : Grown g g' :=
  fun x ref found => second x ref (first x ref found)

theorem Grown.of_env (env : g'.self.env = g.self.env) : Grown g g' := fun x ref found => by rwa [env]

theorem Grown.of_run (run : Generates g piece code g' trace) : Grown g g' := run.variables.kept

theorem Scoped.before (names : Scoped context g') (grown : Grown g g') : Scoped context g :=
  fun x ref found => names x ref (grown x ref found)

theorem Represents.scope (represents : Represents g state vm) (grown : Grown g g') : Represents g' state vm where
  store := represents.store
  locals x term found := by
    obtain ⟨reg, bound, same⟩ := represents.locals x term found
    exact ⟨reg, grown x _ bound, same⟩

/-- Code that keeps the registers of the variables keeps the variables. -/
theorem Represents.keeps {kept : UInt8 → Prop} (represents : Represents g state vm) (keeps : Keeps kept vm vm')
    (covers : ∀ x reg, g.self.env.lookup x = some (.register reg) → kept reg) (store : storeOf vm' = state'.store)
    (locals : state'.locals = state.locals) : Represents g state' vm' where
  store := store
  locals x term found := by
    rw [locals] at found
    obtain ⟨reg, bound, same⟩ := represents.locals x term found
    exact ⟨reg, bound, (keeps.registers reg (covers x reg bound)).trans same⟩

theorem Executing.keeps {image : Image} {frame : ℕ} {kept : UInt8 → Prop} (executing : Executing image frame vm)
    (keeps : Keeps kept vm vm') : Executing image frame vm' :=
  ⟨keeps.image.trans executing.image, keeps.currentFrame.trans executing.frame⟩

end Scopes

/-- The registers up to the counter, without the output register. -/
def Below (g : Scope) (out reg : UInt8) : Prop := reg.toNat ≤ g.self.varCount.toNat ∧ reg ≠ out

/-- What holds behind the code of an expression, between the given scopes. -/
structure Evaluated (g g' : Scope) (out : UInt8) (bindings : Bindings) (state : State World) (vm : Vm World)
    (result : Content × State World) (vm' : Vm World) : Prop where
  keeps : Keeps (Below g out) vm vm'
  represents : Represents g' result.2 vm'
  content : ∀ term, result.1 = some term → register vm' out = term
  silent : bindings = [] → result.2.locals = state.locals

section Evaluated

variable {context : Context World} {g g' : Scope} {out : UInt8} {state : State World} {vm vm' : Vm World}

theorem Suited.below (suited : Suited context g) (output : Output g out) (x : Name) (reg : UInt8)
    (found : g.self.env.lookup x = some (.register reg)) : Below g out reg := by
  obtain ⟨k, same, bounded⟩ := suited.allocated x _ found
  cases same
  exact ⟨bounded, fun same => output.free x (same ▸ found)⟩

/-- An instruction of `n` bytes that has only changed its output register and the store. -/
structure Done (out : UInt8) (n : ℕ) (state : State World) (vm : Vm World) (result : Content × State World)
    (vm' : Vm World) : Prop where
  ip : vm'.ip = vm.ip + n
  keeps : Keeps (· ≠ out) vm vm'
  store : storeOf vm' = result.2.store
  locals : result.2.locals = state.locals
  content : ∀ term, result.1 = some term → register vm' out = term

theorem Done.evaluated {n : ℕ} {result : Content × State World} (done : Done out n state vm result vm')
    (suited : Suited context g) (output : Output g out) (represents : Represents g state vm)
    (env : g'.self.env = g.self.env) (bindings : Bindings) : Evaluated g g' out bindings state vm result vm' where
  keeps := done.keeps.mono fun _ below => below.2
  represents := by
    have kept : Represents g result.2 vm' :=
      represents.keeps done.keeps (fun x reg found => (suited.below output x reg found).2) done.store done.locals
    exact kept.scope (.of_env env)
  content := done.content
  silent _ := done.locals

/-- What a round computes, as an evaluation. -/
theorem Computes.done {host : Host World} {n : ℕ} {run : Except Stop (Term × Store World)}
    (computes : Computes host vm out n run) (records : ∀ result, run = .ok result → result.2.statics = vm.statics)
    (state : State World) :
    Meets (step host) vm ((run.mapError some).map fun result => (some result.1, { state with store := result.2 }))
      (Done out n state vm) := by
  cases run with
  | error stop => exact .stop computes
  | ok result =>
    exact .step computes (.result ⟨rfl, finished_keeps (records _ rfl) .., rfl, rfl,
      fun term known => Option.some.inj known ▸ finished_register ..⟩)

/-- Code that keeps what is below an output, before code that is evaluated. -/
theorem Evaluated.after {g₁ : Scope} {vm₁ : Vm World} {state₁ : State World} {bindings bindings₁ : Bindings}
    {result : Content × State World} (keeps : Keeps (Below g out) vm vm₁)
    (lower : g.self.varCount.toNat ≤ g₁.self.varCount.toNat)
    (later : Evaluated g₁ g' out bindings₁ state₁ vm₁ result vm')
    (silent : bindings = [] → bindings₁ = [] ∧ state₁.locals = state.locals) :
    Evaluated g g' out bindings state vm result vm' where
  keeps := keeps.trans (later.keeps.mono fun _ below => ⟨Nat.le_trans below.1 lower, below.2⟩)
  represents := later.represents
  content := later.content
  silent none := (later.silent (silent none).1).trans (silent none).2

theorem Evaluated.scope {g₁ : Scope} {bindings : Bindings} {result : Content × State World}
    (evaluated : Evaluated g g₁ out bindings state vm result vm') (grown : Grown g₁ g') :
    Evaluated g g' out bindings state vm result vm' :=
  { evaluated with represents := evaluated.represents.scope grown }

/-- Neither the place before nor the place behind the code matters. -/
theorem Evaluated.between {bindings : Bindings} {result : Content × State World} {ip : ℕ}
    (evaluated : Evaluated g g' out bindings state { vm with ip } result vm') :
    Evaluated g g' out bindings state vm result vm' where
  keeps := ⟨evaluated.keeps.image, evaluated.keeps.currentFrame, evaluated.keeps.below, evaluated.keeps.retAddress,
    evaluated.keeps.retRegister, evaluated.keeps.registers⟩
  represents := evaluated.represents
  content := evaluated.content
  silent := evaluated.silent

theorem Evaluated.withIp {bindings : Bindings} {result : Content × State World}
    (evaluated : Evaluated g g' out bindings state vm result vm') (ip : ℕ) :
    Evaluated g g' out bindings state vm result { vm' with ip } where
  keeps := ⟨evaluated.keeps.image, evaluated.keeps.currentFrame, evaluated.keeps.below, evaluated.keeps.retAddress,
    evaluated.keeps.retRegister, evaluated.keeps.registers⟩
  represents := ⟨evaluated.represents.store, evaluated.represents.locals⟩
  content := evaluated.content
  silent := evaluated.silent

end Evaluated

section Evaluates

variable (number : Bytes → Option ℕ) (context : Context World) (image : Image) (frame : ℕ)

/-- The machine before the code of an expression. -/
structure Ready (g : Scope) (out : UInt8) (content : Content) (state : State World) (vm : Vm World) : Prop where
  executing : Executing image frame vm
  represents : Represents g state vm
  content : ∀ term, content = some term → register vm out = term

/-- The code takes the machine to where the evaluation leads. -/
def Evaluates (g : Scope) (out : UInt8) (bindings : Bindings) (code : Bytecode) (g' : Scope)
    (eval : Content → Eval World Content) : Prop :=
  Suited context g → Output g out → Scoped context g' → ∀ (vm : Vm World) (content : Content) (state : State World),
    Ready image frame g out content state vm → Placed number image.code vm.ip code →
    Meets (step context.host) vm (eval content state) fun result vm' =>
      vm'.ip = vm.ip + spanOf code ∧ Evaluated g g' out bindings state vm result vm'

/-- The registers behind the counter. -/
def argRegisters (g : Scope) (n : ℕ) : List UInt8 := (List.range' (g.self.varCount.toNat + 1) n).map UInt8.ofNat

/-- What holds behind the code of arguments. -/
structure EvaluatedArgs (g g' : Scope) (n : ℕ) (state : State World) (vm : Vm World)
    (result : List Term × State World) (vm' : Vm World) : Prop where
  keeps : Keeps (fun reg => reg.toNat ≤ g.self.varCount.toNat) vm vm'
  represents : Represents g' result.2 vm'
  terms : result.1 = (argRegisters g n).map (register vm')
  silent : result.2.locals = state.locals

def EvaluatesArgs (g : Scope) (n : ℕ) (code : Bytecode) (g' : Scope) (eval : Eval World (List Term)) : Prop :=
  Suited context g → Scoped context g' → ∀ (vm : Vm World) (state : State World),
    Executing image frame vm → Represents g state vm → Placed number image.code vm.ip code →
    Meets (step context.host) vm (eval state) fun result vm' =>
      vm'.ip = vm.ip + spanOf code ∧ EvaluatedArgs g g' n state vm result vm'

/-- Whatever is generated for the expression evaluates it. -/
def AllEvaluate (e : Expr) : Prop :=
  ∀ g out code g', generateExpr g (.register out) e = .ok (code, g') → exprCovered e →
    Evaluates number context image frame g out e.bindings code g' fun content => evalExpr context content e

/-- The called functions return the predicted results to the frame that is executed. -/
def CallsMeet : Prop :=
  ∀ (vm : Vm World) (module name : Name) (out id : UInt8) (regs : List UInt8), Executing image frame vm →
    InFrame (out :: regs) → regs.length < REGISTER_COUNT →
    Holds vm ([OP_CALL, out, id] ++ Layout.countedBytes regs) →
    (Layout.call out (linkName module name regs.length) regs).cut.Named number id →
    Meets (step context.host) vm (context.call module name (regs.map (register vm)) (storeOf vm)) fun result vm' =>
      vm'.ip = vm.ip + (4 + regs.length) ∧ Keeps (· ≠ out) vm vm' ∧ storeOf vm' = result.2 ∧
        ∀ term, result.1 = some term → register vm' out = term

end Evaluates

end Owl.Language
