import Owl.Proofs.Compiler.Operations
import Owl.Model.Format.Layout

/-! # Generated operand counts are truthful

An operation has an operand for each of its arguments, and each argument took a register, so their
number fits a byte. A closure captures at most one reference for each instruction of its body, and the
size of that body fits a byte.
-/

namespace Owl.Format

open Owl.Compiler

/-- How many references the running generator and its parents have captured, innermost first. -/
def chain (g : Scope) : List ℕ := (g.self :: g.parents).map (·.upvals.length)

/-- Every generator of a chain has captured at most `n` more references. -/
def CapturesAtMost (n : ℕ) : List ℕ → List ℕ → Prop :=
  List.Forall₂ fun before after => after ≤ before + n

namespace CapturesAtMost

variable {m n : ℕ} {first middle last : List ℕ}

theorem refl (counts : List ℕ) : CapturesAtMost n counts counts :=
  List.forall₂_same.mpr fun _ _ => Nat.le_add_right _ _

theorem trans (left : CapturesAtMost m first middle) (right : CapturesAtMost n middle last) :
    CapturesAtMost (m + n) first last := by
  induction left generalizing last with
  | nil =>
    cases right
    exact .nil
  | cons head tail ih =>
    cases right with
    | cons head' tail' => exact .cons (by omega) (ih tail')

theorem mono (captured : CapturesAtMost m first last) (bound : m ≤ n) : CapturesAtMost n first last :=
  captured.imp fun _ _ few => by omega

end CapturesAtMost

private theorem pushUpval_captures (self : FnGenerator) (varRef : VarRef) :
    (self.pushUpval varRef).2.upvals.length ≤ self.upvals.length + 1 := by
  unfold FnGenerator.pushUpval
  split <;> simp

theorem searchChain_captures (identifier : Name) (generators : List FnGenerator) :
    CapturesAtMost 1 (generators.map (·.upvals.length))
      ((searchChain identifier generators).2.map (·.upvals.length)) := by
  induction generators with
  | nil => exact .nil
  | cons self parents ih =>
    unfold searchChain
    split
    · exact .refl _
    · generalize searchChain identifier parents = found at ih ⊢
      rcases found with ⟨_ | upval, after⟩
      · exact .cons (Nat.le_succ _) ih
      · exact .cons (pushUpval_captures self upval) ih

private theorem searchEnv_captures (g : Scope) (identifier : Name) :
    CapturesAtMost 1 (chain g) (chain (g.searchEnv identifier).2) := by
  have parents := searchChain_captures identifier g.parents
  unfold Scope.searchEnv
  split
  · exact .refl _
  · generalize searchChain identifier g.parents = found at parents ⊢
    rcases found with ⟨_ | upval, after⟩
    · exact .cons (Nat.le_succ _) parents
    · exact .cons (pushUpval_captures g.self upval) parents

private theorem genericApply_captures (g : Scope) (module : Option Name) (name : Name) (retLoc : VarRef)
    (args : List VarRef) (arity : UInt8) :
    CapturesAtMost 1 (chain g) (chain (g.genericApply module name retLoc args arity).2) := by
  have searched := searchEnv_captures g name
  unfold Scope.genericApply
  generalize g.searchEnv name = found at searched ⊢
  rcases found with ⟨_ | varRef, g₁⟩ <;> cases module <;> exact searched

theorem finishOperation_captures {g g' : Scope} {out : VarRef} {locations : List VarRef} {e : Expr}
    {instr : Instruction} (finished : finishOperation g out locations e = .ok (instr, g')) :
    CapturesAtMost 1 (chain g) (chain g') := by
  unfold finishOperation at finished
  split at finished
  · next module name args =>
    unfold Scope.applyOp at finished
    split at finished
    · obtain ⟨_, _, same⟩ := Except.bind_eq_ok.mp finished
      cases same
      exact .refl _
    · rw [← (Prod.mk.inj (Except.ok.inj finished)).2]
      exact genericApply_captures ..
  · cases finished; exact .refl _
  · cases finished; exact .refl _
  · contradiction

private theorem leafInstr_captures {g g' : Scope} {out : VarRef} {e : Expr} {instr : Instruction}
    (single : leafInstr g out e = some (instr, g')) : CapturesAtMost 1 (chain g) (chain g') := by
  unfold leafInstr at single
  split at single
  · obtain ⟨val, _, same⟩ := Option.map_eq_some_iff.mp single
    cases same
    exact .refl _
  · next name =>
    have searched := searchEnv_captures g name
    split at single
    · next found =>
      rw [found] at searched
      cases single
      exact searched
    · contradiction
  all_goals first | contradiction | (cases single; exact .refl _)

private theorem leave_captures {n : ℕ} {g child child' : Scope} {params : List Name}
    (entered : g.child params = .ok child) (captured : CapturesAtMost n (chain child) (chain child')) :
    child'.self.upvals.length ≤ n ∧ CapturesAtMost n (chain g) (chain (child'.leave g)) := by
  obtain ⟨start, created, same⟩ := Except.bind_eq_ok.mp entered
  cases same
  simp only [FnGenerator.new, Except.bind_eq_ok, Prod.exists, Except.pure_eq_ok] at created
  obtain ⟨_, _, -, rfl⟩ := created
  rcases child' with ⟨self, _ | ⟨parent, parents⟩⟩
  · simp [CapturesAtMost, chain] at captured
  · simp only [CapturesAtMost, chain, List.map_cons, List.forall₂_cons] at captured
    exact ⟨by simpa using captured.1, .cons captured.2.1 captured.2.2⟩

/-- Generation captures at most one reference for each instruction, in every generator of the chain. -/
private theorem generates_captures {g g' : Scope} {piece : Piece} {code : Bytecode} {trace : GenTrace}
    (run : Generates g piece code g' trace) : CapturesAtMost code.length (chain g) (chain g') := by
  induction run with
  | leaf single => exact leafInstr_captures single
  | shortCircuit named first second sides joined tested ih₁ ih₂ =>
    obtain ⟨test, jumps, -, rfl⟩ := genBranchInto_instrs joined
    refine (ih₁.trans ih₂).mono ?_
    rcases sides with ⟨rfl, rfl⟩ | ⟨rfl, rfl⟩ <;>
      simp only [List.length_append, List.length_nil] <;> omega
  | operation operands evaluated generated popped snapshots placed finished ih =>
    obtain ⟨varCount, -, rfl⟩ := Scope.argLocations_ok popped
    rw [List.length_append]
    have last := finishOperation_captures finished
    exact ih.trans last
  | branch first second allocated third joined tested ih₁ ih₂ ih₃ =>
    obtain ⟨varCount, -, -, rfl⟩ := Scope.push_ok allocated
    obtain ⟨test, jumps, -, rfl⟩ := genBranchInto_instrs joined
    refine ((ih₁.trans ih₂).trans ih₃).mono ?_
    simp only [List.length_append]
    omega
  | binding fresh allocated generated ih =>
    obtain ⟨varCount, -, -, rfl⟩ := Scope.push_ok allocated
    exact ih
  | closure entered generated sized jumped ih =>
    refine (leave_captures entered ih).2.mono ?_
    simp only [List.length_cons, List.length_append]
    omega
  | argsNil g | blockNil g out | exprsNil g out => exact .refl _
  | argsCons allocated first second ih₁ ih₂ =>
    obtain ⟨varCount, -, -, rfl⟩ := Scope.push_ok allocated
    rw [List.length_append]
    exact ih₁.trans ih₂
  | blockCons first second ih₁ ih₂ | exprsCons first second ih₁ ih₂ =>
    rw [List.length_append]
    exact ih₁.trans ih₂

private theorem byteSize_pos {instr : Instruction} {size : UInt8} (sized : instr.byteSize = .ok size) :
    0 < size.toNat := by
  have withOperands {fixed : UInt8} {regs : List VarRef} (positive : 0 < fixed.toNat)
      (success : sizeWithOperands fixed regs = .ok size) : 0 < size.toNat := by
    have := checkedAdd_ok success
    omega
  cases instr
  case call | callLocal | tuple | list | anonFn => exact withOperands (by decide) sized
  all_goals
    cases sized
    decide

private theorem byteSizeOf_length {code : Bytecode} {size : UInt8} (sized : byteSizeOf code = .ok size) :
    code.length ≤ size.toNat := by
  have fold : ∀ (code : Bytecode) (acc size : UInt8), code.foldlM (fun acc instr => do
      checkedAdd acc (← instr.byteSize)) acc = Except.ok size → acc.toNat + code.length ≤ size.toNat := by
    intro code
    induction code with
    | nil =>
      rintro acc size ⟨⟩
      exact Nat.le_refl _
    | cons instr code ih =>
      intro acc size run
      rw [List.foldlM_cons] at run
      obtain ⟨next, step, rest⟩ := Except.bind_eq_ok.mp run
      obtain ⟨one, sizedOne, added⟩ := Except.bind_eq_ok.mp step
      have positive := byteSize_pos sizedOne
      have total := checkedAdd_ok added
      have := ih next size rest
      rw [List.length_cons]
      omega
  simpa using fold code 0 size sized

private theorem popEach_length {n : ℕ} {g g' : Scope} {regs : List VarRef} (popped : g.popEach n = .ok (regs, g')) :
    regs.length = n := by
  induction n generalizing g g' regs with
  | zero => cases popped; rfl
  | succ n ih =>
    simp only [Scope.popEach, Except.bind_eq_ok, Prod.exists, Except.pure_eq_ok, Prod.mk.injEq] at popped
    obtain ⟨reg, g₁, -, rest, g₂, others, rfl, -⟩ := popped
    rw [List.length_cons, ih others]

theorem argLocations_length {es : List Expr} {g g' : Scope} {locations : List VarRef}
    (popped : g.argLocations es = .ok (locations, g')) :
    locations.length = es.length ∧ es.length < 256 := by
  obtain ⟨varCount, total, -⟩ := Scope.argLocations_ok popped
  have := g.self.varCount.toNat_lt
  simp only [Scope.argLocations, Except.bind_eq_ok, Prod.exists, Except.pure_eq_ok, Prod.mk.injEq] at popped
  obtain ⟨regs, _, each, rfl, -⟩ := popped
  exact ⟨by rw [List.length_reverse, popEach_length each], by omega⟩

private theorem builtins_counted : ∀ entry ∈ builtins, entry.2.Always Counted := by
  simp only [builtins, List.forall_mem_cons, List.not_mem_nil, false_imp_iff, implies_true, and_true]
  refine ⟨?_, ?_, ?_, ?_, ?_, ?_, ?_, ?_, ?_, ?_, ?_, ?_, ?_, ?_, ?_, ?_, ?_, ?_, ?_, ?_, ?_, ?_⟩
  all_goals first
    | exact binary_always fun _ _ _ => trivial
    | exact unary_always fun _ _ => trivial
    | exact ternary_always fun _ _ _ _ => trivial
    | exact nullary_always fun _ => trivial

theorem ofNat_toNat_of_lt {n : ℕ} (small : n < 256) : (UInt8.ofNat n).toNat = n := by
  rw [UInt8.toNat_ofNat', Nat.mod_eq_of_lt small]

private theorem genericApply_counted {g : Scope} {module : Option Name} {name : Name} {retLoc : VarRef}
    {args : List VarRef} (few : args.length < 256) :
    Counted (g.genericApply module name retLoc args (UInt8.ofNat args.length)).1 := by
  unfold Scope.genericApply
  generalize g.searchEnv name = found
  rcases found with ⟨_ | varRef, g₁⟩ <;> cases module <;>
    first
      | exact ofNat_toNat_of_lt few
      | exact few

private theorem finishOperation_counted {g g' : Scope} {out : VarRef} {locations : List VarRef} {e : Expr}
    {es : List Expr} {instr : Instruction} (operands : e.operandExprs = some es)
    (each : locations.length = es.length) (few : es.length < 256)
    (finished : finishOperation g out locations e = .ok (instr, g')) : Counted instr := by
  cases e <;> simp only [Expr.operandExprs, reduceCtorEq] at operands
  case apply module name args =>
    split at operands
    · contradiction
    cases operands
    simp only [finishOperation, Scope.applyOp] at finished
    split at finished
    · next emitter found =>
      obtain ⟨result, emitted, same⟩ := Except.bind_eq_ok.mp finished
      cases same
      obtain ⟨before, after, split, -⟩ := List.lookup_eq_some_iff.mp found
      exact builtins_counted (name, emitter) (by rw [split]; simp) _ _ _ emitted
    · rw [← (Prod.mk.inj (Except.ok.inj finished)).1, ← each]
      exact genericApply_counted (each ▸ few)
  all_goals
    cases operands
    cases finished
    exact (ofNat_toNat_of_lt few).trans each.symm

private theorem leafInstr_counted {g g' : Scope} {out : VarRef} {e : Expr} {instr : Instruction}
    (single : leafInstr g out e = some (instr, g')) : Counted instr := by
  unfold leafInstr at single
  split at single
  · obtain ⟨val, _, same⟩ := Option.map_eq_some_iff.mp single
    cases same
    trivial
  · split at single
    · cases single
      trivial
    · contradiction
  all_goals first | contradiction | (cases single; trivial)

private theorem branchInstrs_counted {reg : VarRef} {thenBranch elseBranch jumps : Bytecode}
    (tested : branchInstrs reg thenBranch elseBranch = .ok jumps) : ∀ instr ∈ jumps, Counted instr := by
  obtain ⟨thenSize, sized, tested⟩ := Except.bind_eq_ok.mp tested
  by_cases nonempty : 0 < thenSize
  · simp only [if_pos nonempty, Except.bind_eq_ok, Except.pure_eq_ok] at tested
    obtain ⟨leap, jumped, closed, rfl, elseSize, elseSized, skip, skipped, rfl⟩ := tested
    simp [Counted]
  · simp only [if_neg nonempty, Except.bind_eq_ok, Except.pure_eq_ok] at tested
    obtain ⟨closed, rfl, elseSize, elseSized, skip, skipped, rfl⟩ := tested
    simp [Counted]

theorem genBranchInto_counted {code thenBranch elseBranch result : Bytecode} {reg : VarRef}
    (joined : genBranchInto code reg thenBranch elseBranch = .ok result)
    (start : ∀ instr ∈ code, Counted instr) (first : ∀ instr ∈ thenBranch, Counted instr)
    (second : ∀ instr ∈ elseBranch, Counted instr) : ∀ instr ∈ result, Counted instr := by
  obtain ⟨test, jumps, tested, rfl⟩ := genBranchInto_instrs joined
  have both := branchInstrs_counted tested
  simp only [List.mem_append, List.mem_cons, List.not_mem_nil, or_false] at both ⊢
  rintro instr (((member | rfl) | member | member) | member)
  · exact start _ member
  · exact both _ (.inl rfl)
  · exact second _ member
  · exact both _ (.inr member)
  · exact first _ member

/-- Every instruction that generation produces announces the operands that it has. -/
private theorem generates_counted {g g' : Scope} {piece : Piece} {code : Bytecode} {trace : GenTrace}
    (run : Generates g piece code g' trace) : ∀ instr ∈ code, Counted instr := by
  induction run with
  | leaf single => simpa using leafInstr_counted single
  | shortCircuit named first second sides joined tested ih₁ ih₂ =>
    rcases sides with ⟨rfl, rfl⟩ | ⟨rfl, rfl⟩
    · exact genBranchInto_counted joined ih₁ ih₂ (by simp)
    · exact genBranchInto_counted joined ih₁ (by simp) ih₂
  | operation operands evaluated generated popped snapshots placed finished ih =>
    obtain ⟨each, few⟩ := argLocations_length popped
    have last := finishOperation_counted operands each few finished
    simpa [or_imp, forall_and] using ⟨ih, last⟩
  | branch first second allocated third joined tested ih₁ ih₂ ih₃ =>
    exact genBranchInto_counted joined ih₃ ih₁ ih₂
  | binding fresh allocated generated ih => exact ih
  | @closure g child child' out params body code bodyTrace size jump entered generated sized jumped ih =>
    have few := (leave_captures entered (generates_captures generated)).1
    have short := byteSizeOf_length sized
    have := size.toNat_lt
    rw [List.length_append] at short
    have closure : Counted (.anonFn out jump (UInt8.ofNat params.length) child'.self.upvals) := by
      simp only [Counted]
      omega
    have final : Counted .return := trivial
    simpa [or_imp, forall_and] using ⟨closure, ih, final⟩
  | argsNil g | exprsNil g out => simp
  | blockNil g out => simp [Counted]
  | argsCons allocated first second ih₁ ih₂ | blockCons first second ih₁ ih₂
    | exprsCons first second ih₁ ih₂ =>
    simpa [or_imp, forall_and] using ⟨ih₁, ih₂⟩

theorem generateFunction_counted {moduleName : Name} {f : FunctionDef} {fn : Compiler.Function}
    (accepted : generateFunction moduleName f = .ok fn) : ∀ instr ∈ fn.code, Counted instr := by
  simp only [generateFunction, generateCode, Except.bind_eq_ok, Prod.exists, Except.pure_eq_ok,
    Prod.mk.injEq] at accepted
  obtain ⟨self, -, _, _, ⟨code, g', generated, rfl, -⟩, rfl⟩ := accepted
  obtain ⟨trace, -, run⟩ := generates_block (fun e _ => traced e) generated
  have final : Counted .return := trivial
  simpa [or_imp, forall_and] using ⟨generates_counted run, final⟩

theorem generate_counted {definition : ModuleDef} {module : Module}
    (accepted : generate definition = .ok module) :
    ∀ function ∈ module.functions, ∀ instr ∈ function.code, Counted instr := by
  simp only [generate, Except.bind_eq_ok, Except.pure_eq_ok] at accepted
  obtain ⟨functions, generated, rfl⟩ := accepted
  dsimp only
  generalize definition.functions = definitions at generated
  induction definitions generalizing functions with
  | nil =>
    rw [Except.mapM_nil_eq_ok.mp generated]
    simp
  | cons f rest ih =>
    obtain ⟨fn, others, one, tail, rfl⟩ := Except.mapM_cons_eq_ok.mp generated
    exact List.forall_mem_cons.mpr ⟨generateFunction_counted one, ih others tail⟩

end Owl.Format
