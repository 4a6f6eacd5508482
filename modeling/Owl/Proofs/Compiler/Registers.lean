import Owl.Proofs.Compiler.Generation
import Mathlib.Data.List.Forall2

/-! # The register counter and the frame of generation

Generation changes a parent only by extending its captured list, and it moves the register counter
by an amount that depends on the expression alone: one for every `let` and one for the condition of
every `if`, outside closures. Everything else gives its registers back.
-/

namespace Owl.Compiler

theorem checkedAdd_ok {a b c : UInt8} (success : checkedAdd a b = .ok c) :
    c.toNat = a.toNat + b.toNat := by
  unfold checkedAdd at success
  split at success
  · next small =>
    cases success
    rw [UInt8.toNat_add, Nat.mod_eq_of_lt small]
  · contradiction

private theorem checkedSub_ok {a b c : UInt8} (success : checkedSub a b = .ok c) :
    c.toNat + b.toNat = a.toNat := by
  unfold checkedSub at success
  split at success
  · next small =>
    cases success
    rw [UInt8.toNat_sub_of_le a b (UInt8.le_iff_toNat_le.mpr small)]
    omega
  · contradiction

/-- What the generation of a nested function may do to a generator outside it. -/
structure FnGenerator.Extends (before after : FnGenerator) : Prop where
  varCount : after.varCount = before.varCount
  env : after.env = before.env
  moduleName : after.moduleName = before.moduleName
  upvals : before.upvals <+: after.upvals

namespace FnGenerator.Extends

theorem refl (self : FnGenerator) : self.Extends self := ⟨rfl, rfl, rfl, List.prefix_refl _⟩

theorem trans {first middle last : FnGenerator} (left : first.Extends middle)
    (right : middle.Extends last) : first.Extends last :=
  ⟨right.varCount.trans left.varCount, right.env.trans left.env,
    right.moduleName.trans left.moduleName, left.upvals.trans right.upvals⟩

end FnGenerator.Extends

theorem FnGenerator.pushUpval_extends (self : FnGenerator) (varRef : VarRef) :
    self.Extends (self.pushUpval varRef).2 := by
  unfold FnGenerator.pushUpval
  split
  · exact .refl self
  · exact ⟨rfl, rfl, rfl, List.prefix_append _ _⟩

abbrev ChainExtends := List.Forall₂ FnGenerator.Extends

theorem ChainExtends.refl (chain : List FnGenerator) : ChainExtends chain chain :=
  List.forall₂_same.mpr fun _ _ => .refl _

theorem ChainExtends.trans {first middle last : List FnGenerator}
    (left : ChainExtends first middle) (right : ChainExtends middle last) :
    ChainExtends first last := by
  induction left generalizing last with
  | nil => exact right
  | cons head _ ih =>
    cases right with
    | cons head' tail' => exact .cons (head.trans head') (ih tail')

theorem searchChain_extends (identifier : Name) (chain : List FnGenerator) :
    ChainExtends chain (searchChain identifier chain).2 := by
  induction chain with
  | nil => exact .nil
  | cons self parents ih =>
    unfold searchChain
    split
    · exact .refl _
    · split
      · next upval parents' found =>
        rw [found] at ih
        exact .cons (self.pushUpval_extends upval) ih
      · next parents' found =>
        rw [found] at ih
        exact .cons (.refl self) ih

/-- A scope after a step that binds nothing and allocates nothing. -/
structure Scope.Extends (before after : Scope) : Prop where
  self : before.self.Extends after.self
  parents : ChainExtends before.parents after.parents

theorem Scope.Extends.refl (g : Scope) : g.Extends g := ⟨.refl _, .refl _⟩

theorem Scope.searchEnv_extends (g : Scope) (identifier : Name) :
    g.Extends (g.searchEnv identifier).2 := by
  have chain := searchChain_extends identifier g.parents
  unfold Scope.searchEnv
  split
  · exact .refl g
  · split
    · next upval parents found =>
      rw [found] at chain
      exact ⟨g.self.pushUpval_extends upval, chain⟩
    · next parents found =>
      rw [found] at chain
      exact ⟨.refl _, chain⟩

theorem Scope.genericApply_extends (g : Scope) (module : Option Name) (name : Name)
    (retLoc : VarRef) (args : List VarRef) (arity : UInt8) :
    g.Extends (g.genericApply module name retLoc args arity).2 := by
  have searched := g.searchEnv_extends name
  unfold Scope.genericApply
  generalize g.searchEnv name = found at searched ⊢
  rcases found with ⟨_ | varRef, g₁⟩ <;> cases module <;> exact searched

theorem finishOperation_extends {g g' : Scope} {out : VarRef} {locations : List VarRef} {e : Expr}
    {instr : Instruction} (finished : finishOperation g out locations e = .ok (instr, g')) :
    g.Extends g' := by
  unfold finishOperation at finished
  split at finished
  · next module name args =>
    unfold Scope.applyOp at finished
    split at finished
    · obtain ⟨_, _, same⟩ := Except.bind_eq_ok.mp finished
      cases same
      exact .refl g
    · rw [← (Prod.mk.inj (Except.ok.inj finished)).2]
      exact g.genericApply_extends ..
  · cases finished; exact .refl g
  · cases finished; exact .refl g
  · contradiction

theorem leafInstr_extends {g g' : Scope} {out : VarRef} {e : Expr} {instr : Instruction}
    (single : leafInstr g out e = some (instr, g')) : g.Extends g' := by
  unfold leafInstr at single
  split at single
  · obtain ⟨val, _, same⟩ := Option.map_eq_some_iff.mp single
    cases same
    exact .refl g
  · next name =>
    have searched := g.searchEnv_extends name
    split at single
    · next found =>
      rw [found] at searched
      cases single
      exact searched
    · contradiction
  all_goals first | contradiction | (cases single; exact .refl g)

theorem Scope.push_ok {g g' : Scope} {reg : VarRef} (success : g.push = .ok (reg, g')) :
    ∃ varCount : UInt8, varCount.toNat = g.self.varCount.toNat + 1 ∧ reg = .register varCount ∧
      g' = { g with self := { g.self with varCount } } := by
  obtain ⟨varCount, added, same⟩ := Except.bind_eq_ok.mp success
  cases same
  exact ⟨varCount, checkedAdd_ok added, rfl, rfl⟩

theorem Scope.pop_ok {g g' : Scope} {reg : VarRef} (success : g.pop = .ok (reg, g')) :
    ∃ varCount : UInt8, varCount.toNat + 1 = g.self.varCount.toNat ∧
      reg = .register g.self.varCount ∧ g' = { g with self := { g.self with varCount } } := by
  obtain ⟨varCount, subtracted, same⟩ := Except.bind_eq_ok.mp success
  cases same
  exact ⟨varCount, checkedSub_ok subtracted, rfl, rfl⟩

/-- Popping moves the counter and nothing else. -/
theorem Scope.popEach_ok {n : ℕ} {g g' : Scope} {regs : List VarRef}
    (success : g.popEach n = .ok (regs, g')) :
    ∃ varCount : UInt8, varCount.toNat + n = g.self.varCount.toNat ∧
      g' = { g with self := { g.self with varCount } } := by
  induction n generalizing g regs with
  | zero => cases success; exact ⟨_, rfl, rfl⟩
  | succ n ih =>
    simp only [Scope.popEach, Except.bind_eq_ok, Prod.exists, Except.pure_eq_ok,
      Prod.mk.injEq] at success
    obtain ⟨reg, g₁, one, rest, g₂, others, -, rfl⟩ := success
    obtain ⟨count, lower, -, rfl⟩ := Scope.pop_ok one
    obtain ⟨varCount, total, rfl⟩ := ih others
    exact ⟨varCount, by dsimp only at total; omega, rfl⟩

theorem Scope.argLocations_ok {es : List Expr} {g g' : Scope} {regs : List VarRef}
    (success : g.argLocations es = .ok (regs, g')) :
    ∃ varCount : UInt8, varCount.toNat + es.length = g.self.varCount.toNat ∧
      g' = { g with self := { g.self with varCount } } := by
  simp only [Scope.argLocations, Except.bind_eq_ok, Prod.exists, Except.pure_eq_ok,
    Prod.mk.injEq] at success
  obtain ⟨_, _, popped, -, rfl⟩ := success
  exact Scope.popEach_ok popped

theorem bindArgs_ok {params : List Name} {varCount total : UInt8} {env result : Env}
    (success : bindArgs params varCount env = .ok (total, result)) :
    total.toNat = varCount.toNat + params.length := by
  induction params generalizing varCount env with
  | nil => cases success; rfl
  | cons param params ih =>
    obtain ⟨next, added, rest⟩ := Except.bind_eq_ok.mp success
    rw [ih rest, checkedAdd_ok added, List.length_cons]
    have : (1 : UInt8).toNat = 1 := rfl
    omega

/-- Leaving an anonymous function, the parent has only captured more. -/
theorem Scope.leave_extends {g child : Scope}
    (parents : ChainExtends (g.self :: g.parents) child.parents) : g.Extends (child.leave g) := by
  simp only [Scope.leave]
  cases outer : child.parents with
  | nil => rw [outer] at parents; cases parents
  | cons self rest =>
    rw [outer] at parents
    cases parents with
    | cons head tail => exact ⟨head, tail⟩

theorem Scope.child_parents {g child : Scope} {params : List Name}
    (entered : g.child params = .ok child) :
    child.parents = g.self :: g.parents ∧
      FnGenerator.new g.self.moduleName (bytes "anon") params = .ok child.self := by
  obtain ⟨start, created, same⟩ := Except.bind_eq_ok.mp entered
  cases same
  exact ⟨rfl, created⟩

mutual

/-- Registers by which the counter is higher after an expression than before it. -/
def Expr.leak : Expr → ℕ
  | .let _ right => 1 + right.leak
  | .if condition body elseBody => leaks body + leaks elseBody + 1 + condition.leak
  | .apply _ name args =>
      if IsShortCircuit name then
        match args with
        | left :: right :: _ => left.leak + right.leak
        | _ => 0
      else leaks args
  | .tuple elems => leaks elems
  | .list elems => leaks elems
  | _ => 0

def leaks : List Expr → ℕ
  | [] => 0
  | e :: es => e.leak + leaks es

end

private theorem leaf_leak {g g' : Scope} {out : VarRef} {e : Expr} {instr : Instruction}
    (single : leafInstr g out e = some (instr, g')) : e.leak = 0 := by
  cases e <;> first | rfl | contradiction

private theorem operation_leak {e : Expr} {es : List Expr} (operands : e.operandExprs = some es) :
    e.leak = leaks es := by
  cases e <;> simp only [Expr.operandExprs, reduceCtorEq] at operands
  case apply module name args =>
    split at operands
    · contradiction
    · next notShort =>
      cases operands
      rw [Expr.leak.eq_def]
      simp only [notShort, if_false]
  all_goals cases operands; rfl

def Piece.leak : Piece → ℕ
  | expr _ e => e.leak
  | args es => es.length + leaks es
  | block _ es => leaks es
  | exprs _ es => leaks es

/-- A whole generation step: the counter moves by the leak, parents only capture more. -/
theorem Generates.frame {g g' : Scope} {piece : Piece} {code : Bytecode} {trace : GenTrace}
    (run : Generates g piece code g' trace) :
    g'.self.varCount.toNat = g.self.varCount.toNat + piece.leak ∧
      g'.self.moduleName = g.self.moduleName ∧ g.self.upvals <+: g'.self.upvals ∧
      ChainExtends g.parents g'.parents := by
  induction run with
  | leaf single =>
    have extended := leafInstr_extends single
    exact ⟨by simp [Piece.leak, leaf_leak single, extended.self.varCount],
      extended.self.moduleName, extended.self.upvals, extended.parents⟩
  | shortCircuit named first second sides joined tested ih₁ ih₂ =>
    refine ⟨?_, ih₂.2.1.trans ih₁.2.1, ih₁.2.2.1.trans ih₂.2.2.1, ih₁.2.2.2.trans ih₂.2.2.2⟩
    have left := ih₁.1
    have right := ih₂.1
    simp only [Piece.leak] at left right ⊢
    rw [Expr.leak.eq_def]
    simp only [named, if_true]
    omega
  | operation operands evaluated generated popped snapshots placed finished ih =>
    obtain ⟨varCount, total, rfl⟩ := Scope.argLocations_ok popped
    have extended := finishOperation_extends finished
    have args := ih.1
    refine ⟨?_, extended.self.moduleName.trans ih.2.1, ih.2.2.1.trans extended.self.upvals,
      ih.2.2.2.trans extended.parents⟩
    rw [extended.self.varCount]
    simp only [Piece.leak, operation_leak operands] at args ⊢
    omega
  | branch first second allocated third joined tested ih₁ ih₂ ih₃ =>
    obtain ⟨varCount, next, -, rfl⟩ := Scope.push_ok allocated
    have thenCount := ih₁.1
    have elseCount := ih₂.1
    have conditionCount := ih₃.1
    refine ⟨?_, ih₃.2.1.trans (ih₂.2.1.trans ih₁.2.1),
      ih₁.2.2.1.trans (ih₂.2.2.1.trans ih₃.2.2.1), ih₁.2.2.2.trans (ih₂.2.2.2.trans ih₃.2.2.2)⟩
    simp only [Piece.leak, Expr.leak] at thenCount elseCount conditionCount ⊢
    omega
  | binding fresh allocated generated ih =>
    obtain ⟨varCount, next, -, rfl⟩ := Scope.push_ok allocated
    have value := ih.1
    refine ⟨?_, ih.2.1, ih.2.2.1, ih.2.2.2⟩
    simp only [Piece.leak, Expr.leak, Scope.insertEnv] at value ⊢
    omega
  | closure entered generated sized jumped ih =>
    have parents := ih.2.2.2
    rw [(Scope.child_parents entered).1] at parents
    have extended := Scope.leave_extends parents
    exact ⟨by simp [Piece.leak, Expr.leak, extended.self.varCount], extended.self.moduleName,
      extended.self.upvals, extended.parents⟩
  | argsNil g => exact ⟨by simp [Piece.leak, leaks], rfl, List.prefix_refl _, .refl _⟩
  | argsCons allocated first second ih₁ ih₂ =>
    obtain ⟨varCount, next, -, rfl⟩ := Scope.push_ok allocated
    have head := ih₁.1
    have tail := ih₂.1
    refine ⟨?_, ih₂.2.1.trans ih₁.2.1, ih₁.2.2.1.trans ih₂.2.2.1, ih₁.2.2.2.trans ih₂.2.2.2⟩
    simp only [Piece.leak, leaks, List.length_cons] at head tail ⊢
    omega
  | blockNil g out => exact ⟨by simp [Piece.leak, leaks], rfl, List.prefix_refl _, .refl _⟩
  | exprsNil g out => exact ⟨by simp [Piece.leak, leaks], rfl, List.prefix_refl _, .refl _⟩
  | blockCons first second ih₁ ih₂ | exprsCons first second ih₁ ih₂ =>
    have head := ih₁.1
    have tail := ih₂.1
    refine ⟨?_, ih₂.2.1.trans ih₁.2.1, ih₁.2.2.1.trans ih₂.2.2.1, ih₁.2.2.2.trans ih₂.2.2.2⟩
    simp only [Piece.leak, leaks] at head tail ⊢
    omega

end Owl.Compiler
