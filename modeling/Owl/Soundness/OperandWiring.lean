import Owl.Proofs.Compiler.Operations

/-! # Which operand lists name the registers of their arguments

Arguments are generated into freshly pushed registers, but the operand list of the instruction that
consumes them is rebuilt by popping the counter once per argument. The two agree exactly when the
arguments keep no register of their own, which a `let` and the condition of an `if` do.
-/

namespace Owl.Compiler

/-- The operands placed in an instruction are, position by position, the registers into which its
arguments were generated; a call, tuple or list places all of them. -/
def GenEvent.Wired : GenEvent → Prop
  | .emit instr outputs => instr.operands <+: outputs ∧ (instr.variadic → instr.operands = outputs)
  | _ => True

instance : (event : GenEvent) → Decidable event.Wired
  | .emit instr outputs =>
    @instDecidableAnd _ _ (List.instDecidableIsPrefixOfDecidableEq instr.operands outputs)
      (@forall_prop_decidable _ _ (instDecidableEqBool instr.variadic true)
        fun _ => instDecidableEqList instr.operands outputs)
  | .state _ => .isTrue trivial
  | .bind _ _ => .isTrue trivial

def GenTrace.Wired (trace : GenTrace) : Prop :=
  ∀ events ∈ trace.functions, ∀ event ∈ events, event.Wired

instance (trace : GenTrace) : Decidable trace.Wired := by unfold GenTrace.Wired; infer_instance

/-- Every instruction generated for an expression, in its function and in the closures in it, has
its operands wired. -/
def OperandsWired (g : Scope) (out : VarRef) (e : Expr) : Prop :=
  ∃ trace, traceExpr g out e = .ok trace ∧ trace.Wired

mutual

/-- No `let` and no `if` stands in the arguments of an instruction that takes operands, at any
depth; what stands in the body of a closure concerns the closure alone. -/
def Expr.ArgumentsBalanced : Expr → Prop
  | .let _ right => right.ArgumentsBalanced
  | .if condition body elseBody =>
      condition.ArgumentsBalanced ∧ AllBalanced body ∧ AllBalanced elseBody
  | .apply _ name args =>
      if IsShortCircuit name then
        match args with
        | left :: right :: _ => left.ArgumentsBalanced ∧ right.ArgumentsBalanced
        | _ => True
      else AllBalanced args ∧ (¬ TakesNoOperand name → leaks args = 0)
  | .tuple elems => AllBalanced elems ∧ leaks elems = 0
  | .list elems => AllBalanced elems ∧ leaks elems = 0
  | .anonFn _ body => AllBalanced body
  | _ => True

def AllBalanced : List Expr → Prop
  | [] => True
  | e :: es => e.ArgumentsBalanced ∧ AllBalanced es

end

/-- Consecutive registers. -/
def registersFrom (start n : ℕ) : List VarRef :=
  (List.range' start n).map fun k => .register (UInt8.ofNat k)

private theorem registersFrom_succ (start n : ℕ) :
    registersFrom start (n + 1) = .register (UInt8.ofNat start) :: registersFrom (start + 1) n := rfl

private theorem registersFrom_concat (start n : ℕ) :
    registersFrom start (n + 1) = registersFrom start n ++ [.register (UInt8.ofNat (start + n))] := by
  simp [registersFrom, List.range'_concat]

private theorem popEach_registers {n : ℕ} {g g' : Scope} {regs : List VarRef}
    (success : g.popEach n = .ok (regs, g')) :
    regs.reverse = registersFrom (g'.self.varCount.toNat + 1) n := by
  induction n generalizing g regs with
  | zero => cases success; rfl
  | succ n ih =>
    simp only [Scope.popEach, Except.bind_eq_ok, Prod.exists, Except.pure_eq_ok,
      Prod.mk.injEq] at success
    obtain ⟨reg, g₁, one, rest, g₂, others, rfl, rfl⟩ := success
    obtain ⟨count, lower, rfl, rfl⟩ := Scope.pop_ok one
    obtain ⟨varCount, total, rfl⟩ := Scope.popEach_ok others
    have newest : varCount.toNat + 1 + n = g.self.varCount.toNat := by dsimp only at total; omega
    rw [List.reverse_cons, ih others, registersFrom_concat]
    simp [newest]

theorem argLocations_registers {es : List Expr} {g g' : Scope} {locations : List VarRef}
    (success : g.argLocations es = .ok (locations, g')) :
    locations = registersFrom (g'.self.varCount.toNat + 1) es.length := by
  simp only [Scope.argLocations, Except.bind_eq_ok, Prod.exists, Except.pure_eq_ok,
    Prod.mk.injEq] at success
  obtain ⟨_, _, popped, rfl, rfl⟩ := success
  exact popEach_registers popped

private theorem generateExpr_varCount {g g' : Scope} {out : VarRef} {e : Expr} {code : Bytecode}
    (success : generateExpr g out e = .ok (code, g')) :
    g'.self.varCount.toNat = g.self.varCount.toNat + e.leak := by
  obtain ⟨_, _, run⟩ := traced e g out code g' success
  exact run.frame.1

/-- The first argument goes into the next register, whatever the arguments keep. -/
private theorem argOutputs_head {e : Expr} {es : List Expr} {g : Scope} {outputs : List VarRef}
    (placed : argOutputs g (e :: es) = .ok outputs) :
    ∃ rest, outputs = .register (UInt8.ofNat (g.self.varCount.toNat + 1)) :: rest := by
  simp only [argOutputs, Except.bind_eq_ok, Prod.exists, Except.pure_eq_ok] at placed
  obtain ⟨argOut, g₁, allocated, _, _, _, rest, _, rfl⟩ := placed
  obtain ⟨varCount, next, rfl, rfl⟩ := Scope.push_ok allocated
  exact ⟨rest, by rw [← next, UInt8.ofNat_toNat]⟩

/-- Arguments that keep no register go into consecutive ones. -/
private theorem argOutputs_registers {es : List Expr} {g : Scope} {outputs : List VarRef}
    (balanced : leaks es = 0) (placed : argOutputs g es = .ok outputs) :
    outputs = registersFrom (g.self.varCount.toNat + 1) es.length := by
  induction es generalizing g outputs with
  | nil => cases placed; rfl
  | cons e es ih =>
    simp only [argOutputs, Except.bind_eq_ok, Prod.exists, Except.pure_eq_ok] at placed
    obtain ⟨argOut, g₁, allocated, code, g₂, generated, rest, placed, rfl⟩ := placed
    obtain ⟨varCount, next, rfl, rfl⟩ := Scope.push_ok allocated
    obtain ⟨first, others⟩ : e.leak = 0 ∧ leaks es = 0 := by
      simpa only [leaks, Nat.add_eq_zero_iff] using balanced
    have kept : g₂.self.varCount.toNat = g.self.varCount.toNat + 1 := by
      rw [generateExpr_varCount generated, first]
      exact next
    rw [List.length_cons, registersFrom_succ, ih others placed, kept, ← next, UInt8.ofNat_toNat]

/-- The operand list is the output list exactly when the arguments keep no register; otherwise the
two differ from the first operand on. -/
private theorem operands_wired_iff {g g₁ g₂ : Scope} {es : List Expr} {e : Expr} {res : Bytecode}
    {argsTrace : GenTrace} {out : VarRef} {locations outputs : List VarRef} {instr : Instruction}
    (generated : Generates g (.args es) res g₁ argsTrace)
    (popped : g₁.argLocations es = .ok (locations, g₂)) (placed : argOutputs g es = .ok outputs)
    (finished : Finished e out locations instr) :
    (GenEvent.emit instr outputs).Wired ↔ (¬ e.TakesNoOperand → leaks es = 0) := by
  obtain ⟨varCount, total, same⟩ := Scope.argLocations_ok popped
  have count : g₁.self.varCount.toNat = g.self.varCount.toNat + (es.length + leaks es) :=
    generated.frame.1
  have offset : g₂.self.varCount.toNat = g.self.varCount.toNat + leaks es := by
    rw [same]
    dsimp only
    omega
  have listed := argLocations_registers popped
  constructor
  · rintro ⟨isPrefix, -⟩ takes
    rcases es with _ | ⟨e', es⟩
    · rfl
    · obtain ⟨rest, rfl⟩ := argOutputs_head placed
      rw [List.length_cons, registersFrom_succ, offset] at listed
      have nonempty := finished.takesSome takes (by rw [listed]; exact List.cons_ne_nil _ _)
      obtain ⟨reg, operands, split⟩ := List.exists_cons_of_ne_nil nonempty
      have first : reg = .register (UInt8.ofNat (g.self.varCount.toNat + 1)) := by
        rw [split] at isPrefix
        exact (List.cons_prefix_cons.mp isPrefix).1
      have second : reg = .register
          (UInt8.ofNat (g.self.varCount.toNat + leaks (e' :: es) + 1)) := by
        have operands := finished.operands
        rw [split, listed] at operands
        exact (List.cons_prefix_cons.mp operands).1
      have bound := g₂.self.varCount.toNat_lt
      have bound' := g₁.self.varCount.toNat_lt
      have equal := congrArg UInt8.toNat (VarRef.register.inj (first.symm.trans second))
      rw [List.length_cons] at count
      rw [UInt8.toNat_ofNat_of_lt' (by simp only [UInt8.size]; omega),
        UInt8.toNat_ofNat_of_lt' (by simp only [UInt8.size]; omega)] at equal
      omega
  · intro condition
    by_cases takes : e.TakesNoOperand
    · obtain ⟨none, plain⟩ := finished.takesNone takes
      exact ⟨none ▸ List.nil_prefix, fun variadic => by simp [plain] at variadic⟩
    · have equal : locations = outputs := by
        rw [listed, argOutputs_registers (condition takes) placed, offset, condition takes]
      exact ⟨equal ▸ finished.operands, fun variadic => equal ▸ finished.variadic variadic⟩

theorem GenTrace.wired_append (first second : GenTrace) :
    (first ++ second).Wired ↔ first.Wired ∧ second.Wired := by
  change (∀ events ∈ (first.own ++ second.own) :: (first.closures ++ second.closures), _) ↔ _
  simp only [GenTrace.Wired, GenTrace.functions, List.forall_mem_cons, List.forall_mem_append]
  tauto

theorem GenTrace.wired_ofEvents (events : List GenEvent) :
    (GenTrace.ofEvents events).Wired ↔ ∀ event ∈ events, event.Wired := by
  simp [GenTrace.Wired, GenTrace.functions, GenTrace.ofEvents]

theorem wired_state (self : FnGenerator) : (GenEvent.state self).Wired := trivial

private theorem wired_of_no_operands {instr : Instruction} (none : instr.operands = [])
    (plain : instr.variadic = false) : (GenEvent.emit instr []).Wired :=
  ⟨none ▸ List.nil_prefix, fun variadic => by simp [plain] at variadic⟩

theorem wired_emits {code : Bytecode}
    (plain : ∀ instr ∈ code, instr.operands = [] ∧ instr.variadic = false) : (emits code).Wired := by
  rw [emits, GenTrace.wired_ofEvents]
  intro event member
  obtain ⟨instr, present, rfl⟩ := List.mem_map.mp member
  exact wired_of_no_operands (plain instr present).1 (plain instr present).2

/-- The events that frame a function body place no operands. -/
private theorem wired_functionEvents (self : FnGenerator) (body : List GenEvent) :
    (∀ event ∈ functionEvents self body, event.Wired) ↔ ∀ event ∈ body, event.Wired := by
  have parameters : ∀ event ∈ self.env.map (fun entry => GenEvent.bind entry.1 entry.2),
      event.Wired := by
    intro event member
    obtain ⟨entry, -, rfl⟩ := List.mem_map.mp member
    trivial
  have returns : (GenEvent.emit .return []).Wired := wired_of_no_operands rfl rfl
  simp only [functionEvents, List.cons_append, List.forall_mem_cons, List.forall_mem_append,
    List.not_mem_nil, false_imp_iff, implies_true, and_true]
  exact ⟨fun all => all.2.1.2, fun body => ⟨trivial, ⟨parameters, body⟩, returns⟩⟩

def Piece.Balanced : Piece → Prop
  | expr _ e => e.ArgumentsBalanced
  | args es => AllBalanced es
  | block _ es => AllBalanced es
  | exprs _ es => AllBalanced es

private theorem leaf_balanced {g g' : Scope} {out : VarRef} {e : Expr} {instr : Instruction}
    (single : leafInstr g out e = some (instr, g')) : e.ArgumentsBalanced := by
  cases e <;> trivial

private theorem operation_balanced {e : Expr} {es : List Expr} (operands : e.operandExprs = some es) :
    e.ArgumentsBalanced ↔ AllBalanced es ∧ (¬ e.TakesNoOperand → leaks es = 0) := by
  cases e <;> simp only [Expr.operandExprs, reduceCtorEq] at operands
  case apply module name args =>
    split at operands
    · contradiction
    · next notShort =>
      cases operands
      rw [Expr.ArgumentsBalanced.eq_def]
      simp only [notShort, if_false, Expr.TakesNoOperand]
  all_goals
    cases operands
    simp only [Expr.ArgumentsBalanced, Expr.TakesNoOperand, not_false_eq_true, true_imp_iff]

private theorem Generates.wired_iff {g g' : Scope} {piece : Piece} {code : Bytecode} {trace : GenTrace}
    (run : Generates g piece code g' trace) : trace.Wired ↔ piece.Balanced := by
  induction run with
  | leaf single =>
    obtain ⟨none, plain, -⟩ := leafInstr_writes single
    exact iff_of_true (wired_emits (by simp [none, plain])) (leaf_balanced single)
  | shortCircuit named first second sides joined tested ih₁ ih₂ =>
    have jumps := wired_emits fun instr member =>
      let plain := branchInstrs_writes tested instr member
      ⟨plain.1, plain.2.1⟩
    rw [GenTrace.wired_append, GenTrace.wired_append, ih₁, ih₂]
    rw [and_iff_left jumps]
    simp only [Piece.Balanced]
    rw [Expr.ArgumentsBalanced.eq_def (.apply _ _ _)]
    simp only [named, if_true]
  | operation operands evaluated generated popped snapshots placed finished ih =>
    have emitted := operands_wired_iff generated popped placed (finishOperation_finished finished)
    rw [GenTrace.wired_append, ih, GenTrace.wired_ofEvents, List.forall_mem_append,
      List.forall_mem_singleton, emitted]
    simp only [Piece.Balanced, operation_balanced operands]
    refine and_congr_right fun _ => and_iff_right ?_
    intro event member
    obtain ⟨self, -, rfl⟩ := List.mem_map.mp member
    trivial
  | branch first second allocated third joined tested ih₁ ih₂ ih₃ =>
    have jumps := wired_emits fun instr member =>
      let plain := branchInstrs_writes tested instr member
      ⟨plain.1, plain.2.1⟩
    simp only [GenTrace.wired_append, ih₁, ih₂, ih₃, jumps, GenTrace.wired_ofEvents,
      List.forall_mem_singleton, wired_state, and_true, Piece.Balanced, Expr.ArgumentsBalanced]
    tauto
  | binding fresh allocated generated ih =>
    simp only [GenTrace.wired_append, ih, GenTrace.wired_ofEvents, List.forall_mem_cons,
      List.not_mem_nil, false_imp_iff, implies_true, wired_state, true_and, Piece.Balanced,
      Expr.ArgumentsBalanced]
    exact and_iff_left ⟨trivial, trivial⟩
  | @closure g child child' out params body code bodyTrace size jump entered generated sized jumped
      ih =>
    have creation : (emits [Instruction.anonFn out jump (UInt8.ofNat params.length)
        child'.self.upvals]).Wired := wired_emits (by simp [Instruction.operands, Instruction.variadic])
    have inner : GenTrace.Wired ⟨[], functionEvents child.self bodyTrace.own :: bodyTrace.closures⟩ ↔
        bodyTrace.Wired := by
      simp only [GenTrace.Wired, GenTrace.functions, List.forall_mem_cons, List.not_mem_nil,
        false_imp_iff, implies_true, true_and, wired_functionEvents]
    rw [GenTrace.wired_append, inner, ih]
    exact and_iff_right creation
  | argsNil g => exact iff_of_true (by simp [GenTrace.wired_ofEvents]) trivial
  | argsCons allocated first second ih₁ ih₂ =>
    simp only [GenTrace.wired_append, ih₁, ih₂, GenTrace.wired_ofEvents, List.forall_mem_singleton,
      wired_state, true_and, Piece.Balanced, AllBalanced]
  | blockNil g out =>
    exact iff_of_true (wired_emits (by simp [Instruction.operands, Instruction.variadic])) trivial
  | exprsNil g out => exact iff_of_true (by simp [GenTrace.wired_ofEvents]) trivial
  | blockCons first second ih₁ ih₂ | exprsCons first second ih₁ ih₂ =>
    simp only [GenTrace.wired_append, ih₁, ih₂, Piece.Balanced, AllBalanced]

/-- In any generator state, the operands of an accepted expression are wired to the registers of
their arguments if and only if no argument keeps a register. -/
theorem operandsWired_iff_balanced {g g' : Scope} {out : VarRef} {e : Expr} {code : Bytecode}
    (accepted : generateExpr g out e = .ok (code, g')) :
    OperandsWired g out e ↔ e.ArgumentsBalanced := by
  obtain ⟨trace, ok, run⟩ := traced e g out code g' accepted
  rw [← show trace.Wired ↔ e.ArgumentsBalanced from run.wired_iff]
  constructor
  · rintro ⟨other, same, wired⟩
    cases ok.symm.trans same
    exact wired
  · exact fun wired => ⟨trace, ok, wired⟩

/-- The generator of a body without parameters, before its first expression. -/
def emptyScope : Scope :=
  { self := { varCount := 0, moduleName := bytes "M", functionName := bytes "f", env := [],
              upvals := [] }
    parents := [] }

/-- `(1, true, nil)` in the first registers of a function. -/
theorem operandsWired_tuple :
    OperandsWired emptyScope (.register 0) (.tuple [.int (bytes "1"), .true, .nil]) := by
  have accepted : generateExpr emptyScope (.register 0) (.tuple [.int (bytes "1"), .true, .nil]) =
      .ok ([.storeInt (.register 1) 1, .storeTrue (.register 2), .storeNil (.register 3),
        .tuple (.register 0) 3 [.register 1, .register 2, .register 3]], emptyScope) := by decide
  exact (operandsWired_iff_balanced accepted).mpr ⟨⟨trivial, trivial, trivial, trivial⟩, rfl⟩

/-- `(if true { 7 }, 11)`: the elements are generated into registers 1 and 3, the tuple is built
from registers 2 and 3. -/
theorem operandsWired_fails : ¬ ∀ g out e code g', generateExpr g out e = .ok (code, g') →
    OperandsWired g out e := by
  intro wired
  obtain ⟨trace, generated, all⟩ := wired emptyScope (.register 0)
    (.tuple [.if .true [.int (bytes "7")] [], .int (bytes "11")]) _ _ rfl
  obtain rfl := Except.ok.inj generated
  exact absurd all (by decide)

end Owl.Compiler
