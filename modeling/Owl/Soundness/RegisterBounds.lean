import Owl.Proofs.Compiler.Captures
import Owl.Proofs.Format.Encoding
import Owl.Soundness.NamedVariables
import Owl.Soundness.OperandWiring

/-! # Which register operands the machine has

A frame has a hundred registers, and from 128 on an operand byte means an upvalue. The register counter of
the generator is a byte that knows neither bound: it grows with every `let`, every condition and every
element of a literal. What it reaches is a sum over the syntax, so the condition under which every operand
stays in the frame is one on the body of the function.
-/

namespace Owl.Compiler

open Owl.Runtime

/-- Every reference of an instruction. -/
def Instruction.refs (instr : Instruction) : List VarRef :=
  instr.writes.toList ++ instr.operands ++ instr.sources

/-- What the split of `get_var` makes of an operand byte. -/
def addressed (byte : UInt8) : VarRef := if 128 ≤ byte then .upvalue (byte - 128) else .register byte

/-- A register, if it is one, that the frame has. -/
def VarRef.InFrame (ref : VarRef) : Prop := ∀ r, ref = .register r → r.toNat < REGISTER_COUNT

/-- A register of the frame or a possible index of an upvalue, whose byte the machine takes for it. -/
structure VarRef.Addressed (ref : VarRef) : Prop where
  register : ref.InFrame
  upvalue : ∀ idx, ref = .upvalue idx → idx.toNat < 128
  exact : ∃ byte, ref.byte = .ok byte ∧ addressed byte = ref

/-- The parameters that a body uses have a register of the frame. -/
def ParametersFit (params : List Name) (body : List Expr) : Prop :=
  ∀ x ∈ exprNames false body, ∀ k, paramRegister params x = some k → k < REGISTER_COUNT

mutual

/-- From a given register counter on, every register that an expression allocates is in the frame. -/
def Expr.FitsFrom : Expr → ℕ → Prop
  | .let _ right, n => n + 1 < REGISTER_COUNT ∧ right.FitsFrom (n + 1)
  | .if condition body elseBody, n =>
      BlockFits body n ∧ BlockFits elseBody (n + leaks body) ∧
        n + leaks body + leaks elseBody + 1 < REGISTER_COUNT ∧
        condition.FitsFrom (n + leaks body + leaks elseBody + 1)
  | .apply _ name args, n =>
      if IsShortCircuit name then
        match args with
        | left :: right :: _ => left.FitsFrom n ∧ right.FitsFrom (n + left.leak)
        | _ => True
      else ArgumentsFit args n
  | .tuple elems, n => ArgumentsFit elems n
  | .list elems, n => ArgumentsFit elems n
  | .anonFn params body, _ => BlockFits body params.length ∧ ParametersFit params body
  | _, _ => True

def ArgumentsFit : List Expr → ℕ → Prop
  | [], _ => True
  | e :: es, n => n + 1 < REGISTER_COUNT ∧ e.FitsFrom (n + 1) ∧ ArgumentsFit es (n + 1 + e.leak)

def BlockFits : List Expr → ℕ → Prop
  | [], _ => True
  | e :: es, n => e.FitsFrom n ∧ BlockFits es (n + e.leak)

end

/-- The registers that a function allocates, and the parameters that it uses, are in the frame. -/
structure FunctionDef.Fits (f : FunctionDef) : Prop where
  body : BlockFits f.body f.args.length
  parameters : ParametersFit f.args f.body

def Piece.FitsFrom : Piece → ℕ → Prop
  | expr _ e, n => e.FitsFrom n
  | args es, n => ArgumentsFit es n
  | block _ es, n => BlockFits es n
  | exprs _ es, n => BlockFits es n

section Machine

variable {World : Type}

/-- What a reference means to the running closure. -/
def VarRef.read (ref : VarRef) : Exec World Term := do
  let vm ← get
  match ref with
  | upvalue idx => upvalueOf vm.currentFunction idx.toNat
  | register reg =>
      if REGISTER_COUNT ≤ reg.toNat then throw .outOfBounds
      else return (vm.frames vm.currentFrame).registers reg.toNat

theorem getVar_eq_read (byte : UInt8) : (getVar byte : Exec World Term) = (addressed byte).read := by
  unfold getVar VarRef.read addressed
  split
  · rfl
  · rfl

/-- The machine reads the register or upvalue that the reference means. -/
theorem VarRef.Addressed.getVar {ref : VarRef} (fits : ref.Addressed) :
    ∃ byte, ref.byte = .ok byte ∧ (getVar byte : Exec World Term) = ref.read := by
  obtain ⟨byte, encoded, same⟩ := fits.exact
  exact ⟨byte, encoded, by rw [getVar_eq_read, same]⟩

end Machine

/-- An encoded reference is addressed exactly when its register is in the frame. -/
private theorem VarRef.addressed_iff {ref : VarRef} {byte : UInt8} (encoded : ref.byte = .ok byte) :
    ref.Addressed ↔ ref.InFrame := by
  refine ⟨fun fits => fits.register, fun inFrame => ⟨inFrame, fun idx same => ?_, byte, encoded, ?_⟩⟩
  · subst same
    have := checkedAdd_ok encoded
    have : (128 : UInt8).toNat = 128 := rfl
    have := byte.toNat_lt
    omega
  · cases ref with
    | register r =>
      obtain rfl := Except.ok.inj encoded
      have := inFrame r rfl
      rw [addressed, if_neg (by rw [UInt8.le_iff_toNat_le]; simp only [REGISTER_COUNT] at this; simp; omega)]
    | upvalue idx =>
      have added := checkedAdd_ok encoded
      have high : (128 : UInt8).toNat = 128 := rfl
      have upper : 128 ≤ byte := by rw [UInt8.le_iff_toNat_le]; omega
      have same : byte - 128 = idx := by
        apply UInt8.toNat_inj.mp
        rw [UInt8.toNat_sub_of_le _ _ upper]
        omega
      rw [addressed, if_pos upper, same]

theorem fixed_encoded {opcode : UInt8} {regs : List VarRef} {emitted : Bytes}
    (success : emitFixed opcode regs = .ok emitted) : ∀ ref ∈ regs, ∃ byte, ref.byte = .ok byte := by
  obtain ⟨rest, listed, -⟩ := Except.bind_eq_ok.mp success
  exact Except.ok_of_mapM listed

/-- An emitted instruction has encoded each of its references. -/
private theorem refs_encoded {instr : Instruction} {emitted : Bytes} (success : instr.emit = .ok emitted) :
    ∀ ref ∈ instr.refs, ∃ byte, ref.byte = .ok byte := by
  cases instr
  case call retLoc name arity regs =>
    simp only [Instruction.emit, Except.bind_eq_ok] at success
    obtain ⟨start, fixed, text, -, rest, listed, -⟩ := success
    have head := fixed_encoded fixed
    have tail := Except.ok_of_mapM listed
    simpa [Instruction.refs, Instruction.writes, Instruction.operands, Instruction.sources] using
      ⟨head _ List.mem_cons_self, tail⟩
  case callLocal | anonFn | tuple | list =>
    simp only [Instruction.emit, Except.bind_eq_ok] at success
    obtain ⟨start, fixed, rest, listed, -⟩ := success
    have head := fixed_encoded fixed
    have tail := Except.ok_of_mapM listed
    simp only [List.forall_mem_cons] at head
    simp only [Instruction.refs, Instruction.writes, Instruction.operands, Instruction.sources]
    simp only [Option.toList, List.forall_mem_append, List.forall_mem_cons]
    tauto
  case capture | loadString =>
    simp only [Instruction.emit, Except.bind_eq_ok] at success
    obtain ⟨start, fixed, -⟩ := success
    exact fixed_encoded fixed
  case storeInt | test =>
    simp only [Instruction.emit, Except.bind_eq_ok] at success
    obtain ⟨start, fixed, -⟩ := success
    exact fixed_encoded fixed
  case jmp | «return» => exact fun _ member => absurd member List.not_mem_nil
  all_goals exact fixed_encoded success

/-- The variables of an expression, seen from a counter, are in the frame. -/
def Bindings.Fit (bindings : Bindings) (n : ℕ) : Prop := ∀ binding ∈ bindings, n + binding.2 < REGISTER_COUNT

/-- A counter that has moved is still in the frame. -/
def CounterFits (n step : ℕ) : Prop := step = 0 ∨ n + step < REGISTER_COUNT

section Fit

variable {n step : ℕ} {first second : Bindings}

theorem Bindings.Fit.nil (n : ℕ) : Bindings.Fit [] n := fun _ member => absurd member List.not_mem_nil

theorem Bindings.Fit.append (left : first.Fit n) (right : second.Fit (n + step)) :
    Bindings.Fit (first ++ second.raise step) n := by
  intro binding member
  obtain member | member := List.mem_append.mp member
  · exact left binding member
  · obtain ⟨below, lower, same⟩ := Bindings.mem_raise.mp member
    have := right _ lower
    simp only at this
    omega

theorem CounterFits.add {step' : ℕ} (left : CounterFits n step) (right : CounterFits (n + step) step') :
    CounterFits n (step + step') := by
  unfold CounterFits at left right ⊢
  omega

end Fit

/-- An expression that fits leaves its variables and the counter in the frame. -/
def Expr.Contained (e : Expr) : Prop := ∀ n, e.FitsFrom n → CounterFits n e.leak ∧ e.bindings.Fit n

theorem arguments_contained {es : List Expr} (each : ∀ e ∈ es, e.Contained) {n : ℕ}
    (fits : ArgumentsFit es n) : CounterFits n (es.length + leaks es) ∧ Bindings.Fit (argBindings es) n := by
  induction es generalizing n with
  | nil => exact ⟨.inl rfl, .nil n⟩
  | cons e es ih =>
    obtain ⟨next, head, tail⟩ := fits
    obtain ⟨counter, bindings⟩ := each e List.mem_cons_self _ head
    obtain ⟨counters, rest⟩ := ih (fun e' member => each e' (List.mem_cons_of_mem e member)) tail
    have total : (e :: es).length + leaks (e :: es) = 1 + e.leak + (es.length + leaks es) := by
      simp only [List.length_cons, leaks]
      omega
    have both : CounterFits n (1 + e.leak) := CounterFits.add (.inr next) counter
    rw [total]
    refine ⟨both.add (by rwa [← Nat.add_assoc]), ?_⟩
    have raised := (Bindings.Fit.nil n).append bindings
    exact raised.append (by rwa [← Nat.add_assoc])

theorem block_contained {es : List Expr} (each : ∀ e ∈ es, e.Contained) {n : ℕ} (fits : BlockFits es n) :
    CounterFits n (leaks es) ∧ Bindings.Fit (exprBindings es) n := by
  induction es generalizing n with
  | nil => exact ⟨.inl rfl, .nil n⟩
  | cons e es ih =>
    obtain ⟨counter, bindings⟩ := each e List.mem_cons_self n fits.1
    obtain ⟨counters, rest⟩ := ih (fun e' member => each e' (List.mem_cons_of_mem e member)) fits.2
    exact ⟨counter.add counters, bindings.append rest⟩

theorem Expr.contained (e : Expr) : e.Contained := by
  induction e with
  | int | true | false | nil | ident | str | capture | anonFn => exact fun n _ => ⟨.inl rfl, .nil n⟩
  | let_ left right value =>
    rintro n ⟨next, fits⟩
    obtain ⟨counter, bindings⟩ := value (n + 1) fits
    refine ⟨CounterFits.add (.inr next) counter, List.forall_mem_append.mpr ⟨?_, ?_⟩⟩
    · exact (Bindings.Fit.nil n).append bindings
    · exact List.forall_mem_singleton.mpr next
  | apply module name args each =>
    intro n fits
    rw [FitsFrom.eq_def] at fits
    rw [leak.eq_def, bindings.eq_def]
    by_cases short : IsShortCircuit name
    · simp only [short, if_true] at fits ⊢
      rcases args with _ | ⟨left, _ | ⟨right, rest⟩⟩
      · exact ⟨.inl rfl, .nil n⟩
      · exact ⟨.inl rfl, .nil n⟩
      · obtain ⟨counter, bindings⟩ := each left (by simp) n fits.1
        obtain ⟨counters, rest⟩ := each right (by simp) _ fits.2
        exact ⟨counter.add counters, bindings.append rest⟩
    · simp only [short, if_false] at fits ⊢
      obtain ⟨counter, bindings⟩ := arguments_contained each fits
      refine ⟨?_, bindings⟩
      unfold CounterFits at counter ⊢
      omega
  | if_ condition body elseBody value thenEach elseEach =>
    rintro n ⟨thenFits, elseFits, next, fits⟩
    obtain ⟨thenCounter, thenBindings⟩ := block_contained thenEach thenFits
    obtain ⟨elseCounter, elseBindings⟩ := block_contained elseEach elseFits
    obtain ⟨counter, bindings⟩ := value _ fits
    constructor
    · have reached : CounterFits n (leaks body + leaks elseBody + 1) := .inr (by omega)
      exact reached.add (by simpa only [Nat.add_assoc] using counter)
    · refine (thenBindings.append elseBindings).append ?_
      simpa only [Nat.add_assoc] using bindings
  | tuple elems each | list elems each =>
    intro n fits
    obtain ⟨counter, bindings⟩ := arguments_contained each fits
    refine ⟨?_, bindings⟩
    unfold CounterFits at counter ⊢
    simp only [leak]
    omega

theorem Piece.contained {piece : Piece} {n : ℕ} (fits : piece.FitsFrom n) :
    CounterFits n piece.leak ∧ piece.bindings.Fit n := by
  cases piece with
  | expr out e => exact e.contained n fits
  | args es => exact arguments_contained (fun e _ => e.contained) fits
  | block out es | exprs out es => exact block_contained (fun e _ => e.contained) fits

def CodeInFrame (code : Bytecode) : Prop := ∀ instr ∈ code, ∀ ref ∈ instr.refs, ref.InFrame

theorem codeInFrame_append {first second : Bytecode} :
    CodeInFrame (first ++ second) ↔ CodeInFrame first ∧ CodeInFrame second := List.forall_mem_append

theorem codeInFrame_singleton {instr : Instruction} :
    CodeInFrame [instr] ↔ ∀ ref ∈ instr.refs, ref.InFrame := List.forall_mem_singleton

theorem register_inFrame {r : UInt8} : (VarRef.register r).InFrame ↔ r.toNat < REGISTER_COUNT :=
  ⟨fun inFrame => inFrame r rfl, fun small _ same => VarRef.register.inj same ▸ small⟩

/-- A joined conditional adds the tested register to its three parts. -/
theorem joined_inFrame {code thenBranch elseBranch result : Bytecode} {reg : VarRef}
    (joined : genBranchInto code reg thenBranch elseBranch = .ok result) :
    CodeInFrame result ↔ CodeInFrame code ∧ reg.InFrame ∧ CodeInFrame thenBranch ∧ CodeInFrame elseBranch := by
  have jump (loc : UInt8) : CodeInFrame [.jmp loc] := by
    simp [codeInFrame_singleton, Instruction.refs, Instruction.writes, Instruction.operands, Instruction.sources]
  have test (skip : UInt8) : CodeInFrame [.test reg skip] ↔ reg.InFrame := by
    simp [codeInFrame_singleton, Instruction.refs, Instruction.writes, Instruction.operands, Instruction.sources]
  obtain ⟨thenSize, sized, joined⟩ := Except.bind_eq_ok.mp joined
  by_cases nonempty : 0 < thenSize
  · simp only [if_pos nonempty, Except.bind_eq_ok, Except.pure_eq_ok] at joined
    obtain ⟨leap, jumped, closed, rfl, elseSize, elseSized, skip, skipped, rfl⟩ := joined
    simp only [codeInFrame_append, test]
    have := jump leap
    tauto
  · simp only [if_neg nonempty, Except.bind_eq_ok, Except.pure_eq_ok] at joined
    obtain ⟨closed, rfl, elseSize, elseSized, skip, skipped, rfl⟩ := joined
    simp only [codeInFrame_append, test]
    tauto

/-- The names that the generator has in registers have them in the frame. -/
def Scope.NamesFit (g : Scope) (names : List Name) : Prop :=
  ∀ x ∈ names, ∀ ref, g.self.env.lookup x = some ref → ref.InFrame

private theorem Scope.namesFit_append {g : Scope} {first second : List Name} :
    g.NamesFit (first ++ second) ↔ g.NamesFit first ∧ g.NamesFit second := List.forall_mem_append

theorem Scope.namesFit_nil (g : Scope) : g.NamesFit [] := fun _ member => absurd member List.not_mem_nil

/-- A search leaves the frame only to the name's own register. -/
private theorem Scope.searched_inFrame (g : Scope) (x : Name) :
    (∀ ref, (g.searchEnv x).1 = some ref → ref.InFrame) ↔ g.NamesFit [x] := by
  rw [(g.searchEnv_eq x).1, NamesFit, List.forall_mem_singleton]
  constructor
  · intro inFrame ref found
    have binds : Binds g.generators 0 x ref := found
    exact inFrame ref (by rw [searchChain_of_binds binds])
  · rintro inFrame _ found r rfl
    exact inFrame _ (searchChain_register found) r rfl

/-- A run that fits binds its variables in the frame, so the same names fit before and after it. -/
theorem Generates.namesFit_iff {g g' : Scope} {piece : Piece} {code : Bytecode} {trace : GenTrace}
    (run : Generates g piece code g' trace) (fits : piece.FitsFrom g.self.varCount.toNat) (names : List Name) :
    g'.NamesFit names ↔ g.NamesFit names := by
  constructor
  · intro inFrame x named ref found
    exact inFrame x named ref (run.variables.kept x ref found)
  · intro inFrame x named ref found
    obtain old | ⟨offset, bound, k, rfl, position⟩ := run.variables.origin x ref found
    · exact inFrame x named ref old
    · have := (Piece.contained fits).2 _ bound
      rw [register_inFrame, position]
      exact this

private theorem leaf_inFrame {g g' : Scope} {out : VarRef} {e : Expr} {instr : Instruction} (n : ℕ)
    (single : leafInstr g out e = some (instr, g')) (output : out.InFrame) :
    CodeInFrame [instr] ↔ e.FitsFrom n ∧ g.NamesFit (e.names false) := by
  rw [codeInFrame_singleton]
  unfold leafInstr at single
  split at single
  · obtain ⟨val, -, same⟩ := Option.map_eq_some_iff.mp single
    cases same
    exact iff_of_true (List.forall_mem_singleton.mpr output) ⟨trivial, g.namesFit_nil⟩
  · next name =>
    have searched := g.searched_inFrame name
    split at single
    · next reg g₁ found =>
      cases single
      rw [found] at searched
      rw [Expr.names, ← searched]
      simp [Instruction.refs, Instruction.writes, Instruction.operands, Instruction.sources, Expr.FitsFrom, output]
    · contradiction
  all_goals first
    | contradiction
    | (cases single; exact iff_of_true (List.forall_mem_singleton.mpr output) ⟨trivial, g.namesFit_nil⟩)

/-- Besides its output register and its operands an operation refers to the function that it calls. -/
private theorem finishOperation_sources {g g' : Scope} {out : VarRef} {locations : List VarRef} {e : Expr}
    {es : List Expr} {instr : Instruction} (operands : e.operandExprs = some es)
    (finished : finishOperation g out locations e = .ok (instr, g')) :
    ∃ called, e.names false = exprNames false es ++ called ∧
      ((∀ ref ∈ instr.sources, ref.InFrame) ↔ g.NamesFit called) := by
  cases e <;> simp only [Expr.operandExprs, reduceCtorEq] at operands
  case apply module name args =>
    split at operands
    · contradiction
    · next notShort =>
      cases operands
      refine ⟨if (builtins.lookup name).isNone && (module.isNone || false) then [name] else [], ?_, ?_⟩
      · rw [Expr.names.eq_def]
        simp only [notShort, if_false]
      have none {instr : Instruction} (sources : instr.sources = []) :
          (∀ ref ∈ instr.sources, ref.InFrame) ↔ g.NamesFit [] :=
        iff_of_true (by rw [sources]; exact fun _ member => absurd member List.not_mem_nil) g.namesFit_nil
      rw [finishOperation, Scope.applyOp] at finished
      split at finished
      · next emitter found =>
        obtain ⟨_, emitted, same⟩ := Except.bind_eq_ok.mp finished
        cases same
        rw [found]
        obtain ⟨before, after, split, -⟩ := List.lookup_eq_some_iff.mp found
        exact none (builtins_sources (name, emitter) (by rw [split]; simp) _ _ _ emitted)
      · next unknown =>
        have searched := g.searched_inFrame name
        rw [unknown, ← (Prod.mk.inj (Except.ok.inj finished)).1]
        generalize g.searchEnv name = result at searched ⊢
        rcases result with ⟨_ | varRef, g₁⟩
        · cases module with
          | none =>
            refine Iff.trans ?_ searched
            simp [Instruction.sources]
          | some module => exact none rfl
        · cases module with
          | none =>
            refine Iff.trans ?_ searched
            simp [Instruction.sources]
          | some module => exact none rfl
  all_goals
    cases operands
    cases finished
    exact ⟨[], (List.append_nil _).symm, iff_of_true (fun _ member => absurd member List.not_mem_nil)
      g.namesFit_nil⟩

private theorem locations_inFrame {es : List Expr} {g g' : Scope} {locations : List VarRef}
    (popped : g.argLocations es = .ok (locations, g')) (room : es = [] ∨ g.self.varCount.toNat < REGISTER_COUNT) :
    ∀ ref ∈ locations, ref.InFrame := by
  obtain ⟨varCount, total, same⟩ := Scope.argLocations_ok popped
  have lower : g'.self.varCount.toNat + es.length = g.self.varCount.toNat := by rw [same, ← total]
  rw [argLocations_registers popped]
  intro ref member
  obtain ⟨k, inside, rfl⟩ := List.mem_map.mp member
  have bounds := List.mem_range'_1.mp inside
  rw [register_inFrame, UInt8.toNat_ofNat']
  obtain rfl | room := room
  · rw [List.length_nil] at bounds
    omega
  · exact (Nat.mod_le _ _).trans_lt (by omega)

/-- The instruction of an operation whose operands are in the frame. -/
private theorem operation_inFrame {g g' : Scope} {out : VarRef} {locations : List VarRef} {e : Expr} {es : List Expr}
    {instr : Instruction} (operands : e.operandExprs = some es)
    (finished : finishOperation g out locations e = .ok (instr, g')) (output : out.InFrame)
    (located : ∀ ref ∈ locations, ref.InFrame) :
    ∃ called, e.names false = exprNames false es ++ called ∧ (CodeInFrame [instr] ↔ g.NamesFit called) := by
  obtain ⟨called, names, sources⟩ := finishOperation_sources operands finished
  refine ⟨called, names, ?_⟩
  have use := finishOperation_finished finished
  have written : ∀ ref ∈ instr.writes.toList, ref.InFrame := by
    intro ref member
    rw [use.writes ref (Option.mem_toList.mp member)]
    exact output
  have placed : ∀ ref ∈ instr.operands, ref.InFrame := fun ref member =>
    located ref (use.operands.subset member)
  rw [codeInFrame_singleton, ← sources, Instruction.refs, List.forall_mem_append, List.forall_mem_append]
  exact ⟨fun all => all.2, fun rest => ⟨⟨written, placed⟩, rest⟩⟩

private theorem builtins_write {out : VarRef} {instr : Instruction} :
    ∀ entry ∈ builtins, entry.2 out [] = .ok instr → instr.writes = some out := by
  simp only [builtins, List.forall_mem_cons, List.not_mem_nil, false_imp_iff, implies_true, and_true]
  refine ⟨?_, ?_, ?_, ?_, ?_, ?_, ?_, ?_, ?_, ?_, ?_, ?_, ?_, ?_, ?_, ?_, ?_, ?_, ?_, ?_, ?_, ?_⟩
  all_goals
    rintro ⟨⟩
  all_goals rfl

/-- An operation without operands writes its output register. -/
private theorem finishOperation_writes {g g' : Scope} {out : VarRef} {e : Expr} {instr : Instruction}
    (finished : finishOperation g out [] e = .ok (instr, g')) : instr.writes = some out := by
  unfold finishOperation at finished
  split at finished
  · next module name args =>
    unfold Scope.applyOp at finished
    split at finished
    · next emitter found =>
      obtain ⟨_, emitted, same⟩ := Except.bind_eq_ok.mp finished
      cases same
      obtain ⟨before, after, split, -⟩ := List.lookup_eq_some_iff.mp found
      exact builtins_write (name, emitter) (by rw [split]; simp) emitted
    · rw [← (Prod.mk.inj (Except.ok.inj finished)).1]
      exact (g.genericApply_instr module name out [] _).2
  · cases finished
    rfl
  · cases finished
    rfl
  · contradiction

private theorem paramRegister_le {params : List Name} {x : Name} {k : ℕ} (found : paramRegister params x = some k) :
    k ≤ params.length := by
  induction params generalizing k with
  | nil => cases found
  | cons param params ih =>
    rw [paramRegister, Option.or_eq_some_iff] at found
    obtain found | ⟨-, found⟩ := found
    · obtain ⟨below, lower, rfl⟩ := Option.map_eq_some_iff.mp found
      exact Nat.succ_le_succ (ih lower)
    · split at found
      · cases found
        exact Nat.le_add_left 1 _
      · contradiction

/-- The generator of a function with parameters that fit. -/
private theorem parameters_inFrame {self : FnGenerator} {moduleName functionName : Name} {params : List Name}
    (created : FnGenerator.new moduleName functionName params = .ok self) (parents : List FnGenerator)
    (body : List Expr) :
    Scope.NamesFit { self, parents } (exprNames false body) ↔ ParametersFit params body := by
  obtain ⟨count, -, looked⟩ := FnGenerator.lookup_new created
  refine forall₂_congr fun x _ => ?_
  rw [looked]
  have narrow {k : ℕ} (found : paramRegister params x = some k) : (UInt8.ofNat k).toNat = k := by
    have := paramRegister_le found
    have := self.varCount.toNat_lt
    exact UInt8.toNat_ofNat_of_lt' (by simp only [UInt8.size]; omega)
  constructor
  · intro inFrame k found
    have fits := inFrame _ (by rw [found]; rfl)
    rwa [register_inFrame, narrow found] at fits
  · intro fits ref found
    obtain ⟨k, position, rfl⟩ := Option.map_eq_some_iff.mp found
    rw [register_inFrame, narrow position]
    exact fits k position

/-- A closure captures registers of the frame if the names that it looks up outside have them there. -/
private theorem captured_inFrame {g child child' : Scope} {params : List Name} {out : VarRef} {body : List Expr}
    {code : Bytecode} {trace : GenTrace} (entered : g.child params = .ok child)
    (run : Generates child (.block out body) code child' trace) :
    (∀ ref ∈ child'.self.upvals, ref.InFrame) ↔
      g.NamesFit ((exprNames true body).filter fun name => name ∉ params) := by
  obtain ⟨outer, created⟩ := Scope.child_parents entered
  have empty := (FnGenerator.lookup_new created).2.1
  have captures : Captures child (exprNames true body) child' := run.captures
  have past (x : Name) (ref : VarRef) : Binds child.generators 1 x ref ↔
      x ∉ params ∧ g.self.env.lookup x = some ref := by
    rw [Scope.generators, Binds, FnGenerator.lookup_new_none created, outer]
    rfl
  constructor
  · intro inFrame x named ref found
    obtain ⟨named, free⟩ := List.mem_filter.mp named
    exact inFrame ref (captures.captured 0 x named ref ((past x ref).mpr ⟨of_decide_eq_true free, found⟩))
  · rintro fits _ member r rfl
    obtain old | ⟨x, named, binds⟩ := captures.sources 0 r member
    · change _ ∈ child.self.upvals at old
      rw [empty] at old
      exact absurd old List.not_mem_nil
    · obtain ⟨free, found⟩ := (past x _).mp binds
      exact fits x (List.mem_filter.mpr ⟨named, decide_eq_true free⟩) _ found r rfl

/-- What code in the frame has reached: its output register or the one above the counter. -/
def Piece.Reaches : Piece → ℕ → Prop
  | expr out _, n => out.InFrame ∨ n + 1 < REGISTER_COUNT
  | args es, n => es ≠ [] → n + 1 < REGISTER_COUNT
  | block out _, n => out.InFrame ∨ n + 1 < REGISTER_COUNT
  | exprs _ _, _ => True

theorem written_inFrame {instr : Instruction} {out : VarRef} (written : instr.writes = some out)
    (inFrame : CodeInFrame [instr]) : out.InFrame := by
  refine codeInFrame_singleton.mp inFrame out ?_
  rw [Instruction.refs, written]
  exact List.mem_cons_self

/-- The register that a push allocates. -/
theorem pushed_inFrame {g g' : Scope} {reg : VarRef} (allocated : g.push = .ok (reg, g')) :
    (reg.InFrame ↔ g.self.varCount.toNat + 1 < REGISTER_COUNT) ∧
      g'.self.varCount.toNat = g.self.varCount.toNat + 1 ∧ g'.self.env = g.self.env := by
  obtain ⟨varCount, next, rfl, rfl⟩ := Scope.push_ok allocated
  exact ⟨by rw [register_inFrame, next], next, rfl⟩

theorem Generates.reaches {g g' : Scope} {piece : Piece} {code : Bytecode} {trace : GenTrace}
    (run : Generates g piece code g' trace) (inFrame : CodeInFrame code) :
    piece.Reaches g.self.varCount.toNat := by
  induction run with
  | leaf single => exact .inl (written_inFrame (leafInstr_writes single).2.2 inFrame)
  | shortCircuit named first second sides joined tested ih₁ ih₂ =>
    exact ih₁ ((joined_inFrame joined).mp inFrame).1
  | @operation g g₁ g₂ g₃ out e es res argsTrace locations outputs states instr operands evaluated generated
      popped snapshots placed finished ih =>
    obtain ⟨before, last⟩ := codeInFrame_append.mp inFrame
    by_cases none : es = []
    · subst none
      have empty : locations = [] := argLocations_registers popped
      subst empty
      exact .inl (written_inFrame (finishOperation_writes finished) last)
    · exact .inr (ih before none)
  | @branch g g₁ g₂ g₃ g₄ out conditionOut condition body elseBody thenBranch elseBranch res code jumps
      thenTrace elseTrace conditionTrace first second allocated third joined tested ih₁ ih₂ ih₃ =>
    have fits := (pushed_inFrame allocated).1.mp ((joined_inFrame joined).mp inFrame).2.1
    have thenCount := first.frame.1
    have elseCount := second.frame.1
    exact .inr (by omega)
  | binding fresh allocated generated ih =>
    obtain ⟨same, count, -⟩ := pushed_inFrame allocated
    refine .inr ?_
    obtain reached | reached := ih inFrame
    · exact same.mp reached
    · omega
  | closure entered generated sized jumped ih =>
    exact .inl (written_inFrame rfl (List.forall_mem_singleton.mpr (inFrame _ List.mem_cons_self)))
  | argsNil g => exact fun nonempty => absurd rfl nonempty
  | argsCons allocated first second ih₁ ih₂ =>
    obtain ⟨same, count, -⟩ := pushed_inFrame allocated
    intro _
    obtain reached | reached := ih₁ (codeInFrame_append.mp inFrame).1
    · exact same.mp reached
    · omega
  | blockNil g out => exact .inl (written_inFrame rfl inFrame)
  | blockCons first second ih₁ ih₂ => exact ih₁ (codeInFrame_append.mp inFrame).1
  | exprsNil | exprsCons => trivial

/-- Two steps in sequence; the second looks its names up among the variables of the first. -/
theorem Scope.inFrame_sequence {g g₁ : Scope} {first second fits fits' : Prop} {names names' : List Name}
    (later : fits → (g₁.NamesFit names' ↔ g.NamesFit names')) (head : first ↔ fits ∧ g.NamesFit names)
    (tail : second ↔ fits' ∧ g₁.NamesFit names') :
    first ∧ second ↔ (fits ∧ fits') ∧ g.NamesFit (names ++ names') := by
  rw [head, tail, Scope.namesFit_append]
  constructor
  · rintro ⟨⟨inner, known⟩, outer, others⟩
    exact ⟨⟨inner, outer⟩, known, (later inner).mp others⟩
  · rintro ⟨⟨inner, outer⟩, known, others⟩
    exact ⟨⟨inner, known⟩, outer, (later inner).mpr others⟩

section Pushed

variable {g g₁ g₂ : Scope} {out : VarRef} {e : Expr} {code : Bytecode} {trace : GenTrace}

/-- A run into a register that has just been allocated. -/
theorem Generates.inFrame_pushed (allocated : g.push = .ok (out, g₁))
    (run : Generates g₁ (.expr out e) code g₂ trace) (value : out.InFrame → (CodeInFrame code ↔
      e.FitsFrom g₁.self.varCount.toNat ∧ g₁.NamesFit (e.names false))) :
    CodeInFrame code ↔ (g.self.varCount.toNat + 1 < REGISTER_COUNT ∧ e.FitsFrom (g.self.varCount.toNat + 1)) ∧
      g.NamesFit (e.names false) := by
  obtain ⟨same, count, env⟩ := pushed_inFrame allocated
  have names : g₁.NamesFit (e.names false) ↔ g.NamesFit (e.names false) := by
    rw [Scope.NamesFit, env]
    rfl
  rw [count, names] at value
  constructor
  · intro inFrame
    have room : g.self.varCount.toNat + 1 < REGISTER_COUNT := by
      obtain reached | reached := run.reaches inFrame
      · exact same.mp reached
      · omega
    obtain ⟨fits, known⟩ := (value (same.mpr room)).mp inFrame
    exact ⟨⟨room, fits⟩, known⟩
  · rintro ⟨⟨room, fits⟩, known⟩
    exact (value (same.mpr room)).mpr ⟨fits, known⟩

private theorem Generates.namesFit_pushed (allocated : g.push = .ok (out, g₁))
    (run : Generates g₁ (.expr out e) code g₂ trace) (fits : e.FitsFrom (g.self.varCount.toNat + 1))
    (names : List Name) : g₂.NamesFit names ↔ g.NamesFit names := by
  obtain ⟨-, count, env⟩ := pushed_inFrame allocated
  rw [← count] at fits
  rw [run.namesFit_iff fits names, Scope.NamesFit, env]
  rfl

end Pushed

private theorem operation_fits {e : Expr} {es : List Expr} (operands : e.operandExprs = some es) (n : ℕ) :
    e.FitsFrom n ↔ ArgumentsFit es n := by
  cases e <;> simp only [Expr.operandExprs, reduceCtorEq] at operands
  case apply module name args =>
    split at operands
    · contradiction
    · next notShort =>
      cases operands
      rw [Expr.FitsFrom.eq_def]
      simp only [notShort, if_false]
  all_goals
    cases operands
    exact Iff.rfl

/-- The code of a piece stays in the frame exactly when the registers that it allocates and the names that
it looks up are there. -/
private theorem Generates.inFrame_iff {g g' : Scope} {piece : Piece} {code : Bytecode} {trace : GenTrace}
    (run : Generates g piece code g' trace) (output : ∀ out, piece.out? = some out → out.InFrame) :
    CodeInFrame code ↔ piece.FitsFrom g.self.varCount.toNat ∧ g.NamesFit (piece.names false) := by
  induction run with
  | leaf single => exact leaf_inFrame _ single (output _ rfl)
  | @shortCircuit g g₁ g₂ out module name left right rest leftCode rightCode thenBranch elseBranch code jumps
      leftTrace rightTrace named first second sides joined tested ih₁ ih₂ =>
    have counter : g₁.self.varCount.toNat = g.self.varCount.toNat + left.leak := first.frame.1
    have both := Scope.inFrame_sequence (fun fits => first.namesFit_iff fits _) (ih₁ output) (ih₂ output)
    have branches : CodeInFrame thenBranch ∧ CodeInFrame elseBranch ↔ CodeInFrame rightCode := by
      have none : CodeInFrame [] := fun _ member => absurd member List.not_mem_nil
      obtain ⟨rfl, rfl⟩ | ⟨rfl, rfl⟩ := sides
      · exact and_iff_left none
      · exact and_iff_right none
    rw [joined_inFrame joined, branches, and_iff_right (output out rfl), both, counter]
    simp only [Piece.FitsFrom, Piece.names]
    rw [Expr.FitsFrom.eq_def (.apply _ _ _), Expr.names.eq_def false (.apply _ _ _)]
    simp only [named, if_true]
  | @operation g g₁ g₂ g₃ out e es res argsTrace locations outputs states instr operands evaluated generated
      popped snapshots placed finished ih =>
    have args := ih (by rintro out ⟨⟩)
    simp only [Piece.FitsFrom, Piece.names, operation_fits operands] at args ⊢
    by_cases fits : ArgumentsFit es g.self.varCount.toNat
    · have room : es = [] ∨ g₁.self.varCount.toNat < REGISTER_COUNT := by
        have counter : g₁.self.varCount.toNat = g.self.varCount.toNat + (es.length + leaks es) :=
          generated.frame.1
        have reached := (arguments_contained (fun e _ => e.contained) fits).1
        rw [counter]
        refine reached.imp_left fun none => List.length_eq_zero_iff.mp ?_
        exact (Nat.add_eq_zero_iff.mp none).1
      obtain ⟨called, names, last⟩ :=
        operation_inFrame operands finished (output out rfl) (locations_inFrame popped room)
      have later : g₂.NamesFit called ↔ g.NamesFit called := by
        rw [← generated.namesFit_iff fits called]
        obtain ⟨varCount, -, rfl⟩ := Scope.argLocations_ok popped
        exact Iff.rfl
      rw [codeInFrame_append, args, last, later, names, Scope.namesFit_append, and_assoc]
    · refine iff_of_false (fun inFrame => ?_) (fun both => fits both.1)
      exact fits (args.mp (codeInFrame_append.mp inFrame).1).1
  | @branch g g₁ g₂ g₃ g₄ out conditionOut condition body elseBody thenBranch elseBranch res code jumps
      thenTrace elseTrace conditionTrace first second allocated third joined tested ih₁ ih₂ ih₃ =>
    have thenCount : g₁.self.varCount.toNat = g.self.varCount.toNat + leaks body := first.frame.1
    have elseCount : g₂.self.varCount.toNat = g₁.self.varCount.toNat + leaks elseBody := second.frame.1
    have bodies := Scope.inFrame_sequence (fun fits => first.namesFit_iff fits _) (ih₁ output) (ih₂ output)
    have value := third.inFrame_pushed allocated fun inFrame => ih₃ fun _ same => Option.some.inj same ▸ inFrame
    have all := Scope.inFrame_sequence (fun fits => (second.namesFit_iff fits.2 _).trans
      (first.namesFit_iff fits.1 _)) bodies value
    have grouped : CodeInFrame code ↔ (CodeInFrame thenBranch ∧ CodeInFrame elseBranch) ∧ CodeInFrame res := by
      rw [joined_inFrame joined]
      constructor
      · rintro ⟨value, -, branches⟩
        exact ⟨branches, value⟩
      · rintro ⟨branches, inFrame⟩
        exact ⟨inFrame, (pushed_inFrame allocated).1.mpr (value.mp inFrame).1.1, branches⟩
    rw [thenCount, elseCount, thenCount] at all
    simp only [Piece.FitsFrom, Piece.names, Expr.FitsFrom, Expr.names] at all ⊢
    rw [grouped, all, and_assoc (a := BlockFits body _)]
  | binding fresh allocated generated ih =>
    exact generated.inFrame_pushed allocated fun inFrame => ih fun _ same => Option.some.inj same ▸ inFrame
  | @closure g child child' out params body code bodyTrace size jump entered generated sized jumped ih =>
    obtain ⟨-, created⟩ := Scope.child_parents entered
    have inner := ih fun _ same => Option.some.inj same ▸ register_inFrame.mpr (by decide)
    have captured := captured_inFrame entered generated
    have parameters : child.NamesFit (exprNames false body) ↔ ParametersFit params body :=
      parameters_inFrame created child.parents body
    have returns : CodeInFrame [.return] :=
      codeInFrame_singleton.mpr fun _ absent => absurd absent List.not_mem_nil
    have creation : CodeInFrame [.anonFn out jump (UInt8.ofNat params.length) child'.self.upvals] ↔
        g.NamesFit ((exprNames true body).filter fun name => name ∉ params) := by
      rw [codeInFrame_singleton, ← captured]
      exact List.forall_mem_cons.trans (and_iff_right (output out rfl))
    simp only [Piece.FitsFrom, Piece.names, Expr.FitsFrom, Expr.names, (FnGenerator.lookup_new created).1,
      parameters] at inner ⊢
    rw [← List.singleton_append, codeInFrame_append, codeInFrame_append, inner, creation, and_iff_left returns,
      and_comm]
  | argsNil g => exact iff_of_true (fun _ member => absurd member List.not_mem_nil) ⟨trivial, g.namesFit_nil⟩
  | @argsCons g g₁ g₂ g₃ argOut e es code rest argTrace restTrace allocated first second ih₁ ih₂ =>
    have pushed := (pushed_inFrame allocated).2.1
    have counter : g₂.self.varCount.toNat = g₁.self.varCount.toNat + e.leak := first.frame.1
    have head := first.inFrame_pushed allocated fun inFrame => ih₁ fun _ same => Option.some.inj same ▸ inFrame
    have both := Scope.inFrame_sequence (fun fits => first.namesFit_pushed allocated fits.2 _) head (ih₂ output)
    rw [counter, pushed, and_assoc (a := _ < _)] at both
    exact codeInFrame_append.trans both
  | blockNil g out =>
    exact iff_of_true (codeInFrame_singleton.mpr (List.forall_mem_singleton.mpr (output out rfl)))
      ⟨trivial, g.namesFit_nil⟩
  | exprsNil g out => exact iff_of_true (fun _ member => absurd member List.not_mem_nil) ⟨trivial, g.namesFit_nil⟩
  | @blockCons g g₁ g₂ out e es code rest exprTrace restTrace first second ih₁ ih₂
  | @exprsCons g g₁ g₂ out e es code rest exprTrace restTrace first second ih₁ ih₂ =>
    have counter : g₁.self.varCount.toNat = g.self.varCount.toNat + e.leak := first.frame.1
    have both := Scope.inFrame_sequence (fun fits => first.namesFit_iff fits _) (ih₁ output) (ih₂ output)
    rw [counter] at both
    exact codeInFrame_append.trans both

/-- Every reference of every instruction is addressed. -/
def Function.OperandsAddressed (fn : Function) : Prop := ∀ instr ∈ fn.code, ∀ ref ∈ instr.refs, ref.Addressed

private theorem generateFunction_generates {moduleName : Name} {f : FunctionDef} {fn : Function}
    (accepted : generateFunction moduleName f = .ok fn) :
    ∃ self code g' trace, FnGenerator.new moduleName f.name f.args = .ok self ∧ fn.code = code ++ [.return] ∧
      Generates { self, parents := [] } (.block (.register 0) f.body) code g' trace := by
  simp only [generateFunction, generateCode, Except.bind_eq_ok, Prod.exists, Except.pure_eq_ok,
    Prod.mk.injEq] at accepted
  obtain ⟨self, created, _, _, ⟨code, g', generated, rfl, rfl⟩, rfl⟩ := accepted
  obtain ⟨trace, -, run⟩ := generates_block (fun e _ => traced e) generated
  exact ⟨self, code, g', trace, created, rfl, run⟩

private theorem codeInFrame_iff_fits {moduleName : Name} {f : FunctionDef} {fn : Function}
    (accepted : generateFunction moduleName f = .ok fn) : CodeInFrame fn.code ↔ f.Fits := by
  obtain ⟨self, code, g', trace, created, same, run⟩ := generateFunction_generates accepted
  have body := run.inFrame_iff fun _ same => Option.some.inj same ▸ register_inFrame.mpr (by decide)
  have parameters : Scope.NamesFit ⟨self, []⟩ (exprNames false f.body) ↔ ParametersFit f.args f.body :=
    parameters_inFrame created [] f.body
  have returns : CodeInFrame [.return] :=
    codeInFrame_singleton.mpr fun _ absent => absurd absent List.not_mem_nil
  simp only [Piece.FitsFrom, Piece.names, (FnGenerator.lookup_new created).1, parameters] at body
  rw [same, codeInFrame_append, and_iff_left returns, body]
  exact ⟨fun both => ⟨both.1, both.2⟩, fun fits => ⟨fits.body, fits.parameters⟩⟩

/-- The operands of a function that is generated and emitted are addressed exactly when the registers that
its body allocates and the parameters that it uses are in the frame. -/
theorem operandsAddressed_iff_fits {moduleName : Name} {f : FunctionDef} {fn : Function} {emitted : Bytes}
    (accepted : generateFunction moduleName f = .ok fn) (written : fn.emit = .ok emitted) :
    fn.OperandsAddressed ↔ f.Fits := by
  simp only [Function.emit, Except.bind_eq_ok] at written
  obtain ⟨header, -, body, encoded, -⟩ := written
  rw [← codeInFrame_iff_fits accepted]
  refine forall₂_congr fun instr member => forall₂_congr fun ref used => ?_
  obtain ⟨bytes, single⟩ := Except.ok_of_mapM encoded instr member
  obtain ⟨byte, same⟩ := refs_encoded single ref used
  exact VarRef.addressed_iff same

private theorem parametersFit_of_length {params : List Name} (body : List Expr) (few : params.length < REGISTER_COUNT) :
    ParametersFit params body :=
  fun _ _ _ found => (paramRegister_le found).trans_lt few

/-- `fn f(x) { let g = (y) => { (x, y) } g(x) }`. -/
def capturingFunction : FunctionDef where
  name := bytes "f"
  args := [bytes "x"]
  body := [.let (bytes "g") (.anonFn [bytes "y"] [.tuple [.ident (bytes "x"), .ident (bytes "y")]]),
    .apply none (bytes "g") [.ident (bytes "x")]]

theorem operandsAddressed_capturing : ∃ fn, generateFunction (bytes "M") capturingFunction = .ok fn ∧
    fn.OperandsAddressed := by
  obtain ⟨fn, accepted⟩ : ∃ fn, generateFunction (bytes "M") capturingFunction = .ok fn := ⟨_, rfl⟩
  obtain ⟨emitted, written⟩ : ∃ emitted, (generateFunction (bytes "M") capturingFunction >>= Function.emit) =
    .ok emitted := ⟨_, rfl⟩
  rw [accepted] at written
  refine ⟨fn, accepted, (operandsAddressed_iff_fits accepted written).mpr ⟨?_, ?_⟩⟩
  · simp only [capturingFunction, BlockFits, Expr.FitsFrom, ArgumentsFit, Expr.leak, and_true, true_and]
    exact ⟨⟨by decide, by decide, parametersFit_of_length _ (by decide)⟩, by decide⟩
  · exact parametersFit_of_length _ (by decide)

/-- `fn f() { [nil, …, nil] }` with a hundred elements. -/
def wideFunction : FunctionDef where
  name := bytes "f"
  args := []
  body := [.list (List.replicate 100 .nil)]

set_option maxRecDepth 4000 in
/-- The hundredth element is generated into register 100. -/
theorem operandsAddressed_fails : ¬ ∀ moduleName f fn emitted, generateFunction moduleName f = .ok fn →
    fn.emit = .ok emitted → fn.OperandsAddressed := by
  intro addressed
  obtain ⟨fn, accepted⟩ : ∃ fn, generateFunction (bytes "M") wideFunction = .ok fn := ⟨_, rfl⟩
  obtain ⟨emitted, written⟩ : ∃ emitted, (generateFunction (bytes "M") wideFunction >>= Function.emit) =
    .ok emitted := ⟨_, rfl⟩
  rw [accepted] at written
  have fits := (operandsAddressed_iff_fits accepted written).mp (addressed _ _ _ _ accepted written)
  have counter := (arguments_contained (fun e _ => e.contained) fits.body.1).1
  simp only [CounterFits, List.length_replicate, REGISTER_COUNT] at counter
  omega

end Owl.Compiler
