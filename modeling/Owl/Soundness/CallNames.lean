import Owl.Model.Compiler.Parser
import Owl.Proofs.Compiler.Operations

/-! # What a call names

A call looks its name up in three places: the built-in operations, the variables in scope and the
functions of a module. The built-in operations come first and ignore the module, so a call means what
its scope says exactly when its name is not one of theirs.
-/

namespace Owl.Compiler

theorem IsIdentifier.not_shortCircuit {name : Name} (identifier : IsIdentifier name) : ¬ IsShortCircuit name := by
  obtain ⟨first, head, lower⟩ := identifier.1
  rintro (rfl | rfl)
  · cases (show some (38 : UInt8) = some first from head)
    exact absurd lower (by decide)
  · cases (show some (124 : UInt8) = some first from head)
    exact absurd lower (by decide)

/-- `apply_op` has an arm for the name. -/
def IsBuiltin (name : Name) : Prop := (builtins.lookup name).isSome

instance (name : Name) : Decidable (IsBuiltin name) := inferInstanceAs (Decidable (_ = true))

private theorem FnGenerator.pushUpval_again (self : FnGenerator) (varRef : VarRef) :
    ((self.pushUpval varRef).2.pushUpval varRef) = self.pushUpval varRef := by
  unfold FnGenerator.pushUpval
  cases found : self.upvals.findIdx? (· = varRef) with
  | some index => simp only [found]
  | none =>
    have appended : (self.upvals ++ [varRef]).findIdx? (· = varRef) = some self.upvals.length := by
      rw [List.findIdx?_append, found]
      simp
    simp only [appended]

private theorem searchChain_again (identifier : Name) (chain : List FnGenerator) :
    searchChain identifier (searchChain identifier chain).2 = searchChain identifier chain := by
  induction chain with
  | nil => rfl
  | cons self parents ih =>
    cases own : self.env.lookup identifier with
    | some varRef => simp only [searchChain, own]
    | none =>
      cases above : searchChain identifier parents with
      | mk found parents' =>
        rw [above] at ih
        cases found with
        | none => simp only [searchChain, own, above, ih]
        | some upval =>
          have kept : (self.pushUpval upval).2.env.lookup identifier = none := by
            rw [(self.pushUpval_extends upval).env, own]
          have again := self.pushUpval_again upval
          simp only [searchChain, own, above, kept, ih]
          rw [again]

/-- A second search of a name finds the same reference and captures nothing more. -/
private theorem Scope.searchEnv_again (g : Scope) (identifier : Name) :
    (g.searchEnv identifier).2.searchEnv identifier = g.searchEnv identifier := by
  cases own : g.self.env.lookup identifier with
  | some varRef => simp only [Scope.searchEnv, own]
  | none =>
    have chain := searchChain_again identifier g.parents
    cases above : searchChain identifier g.parents with
    | mk found parents' =>
      rw [above] at chain
      cases found with
      | none => simp only [Scope.searchEnv, own, above, chain]
      | some upval =>
        have kept : (g.self.pushUpval upval).2.env.lookup identifier = none := by
          rw [(g.self.pushUpval_extends upval).env, own]
        have again := g.self.pushUpval_again upval
        simp only [Scope.searchEnv, own, above, kept, chain]
        rw [again]

private theorem ChainExtends.any_lookup {identifier : Name} {before after : List FnGenerator}
    (extended : ChainExtends before after) :
    (after.any fun generator => (generator.env.lookup identifier).isSome) =
      before.any fun generator => (generator.env.lookup identifier).isSome := by
  induction extended with
  | nil => rfl
  | cons head _ ih => rw [List.any_cons, List.any_cons, head.env, ih]

theorem Scope.Extends.identifierExistsInScope {before after : Scope} (extended : before.Extends after)
    (identifier : Name) :
    after.identifierExistsInScope identifier = before.identifierExistsInScope identifier :=
  ChainExtends.any_lookup (.cons extended.self extended.parents)

private theorem searchChain_isSome (identifier : Name) (chain : List FnGenerator) :
    (searchChain identifier chain).1.isSome =
      chain.any fun generator => (generator.env.lookup identifier).isSome := by
  induction chain with
  | nil => rfl
  | cons self parents ih =>
    rw [List.any_cons, ← ih]
    cases own : self.env.lookup identifier with
    | some varRef => simp only [searchChain, own, Option.isSome_some, Bool.true_or]
    | none =>
      cases above : searchChain identifier parents with
      | mk found parents' =>
        cases found with
        | none => simp only [searchChain, own, above, Option.isSome_none, Bool.false_or]
        | some upval => simp only [searchChain, own, above, Option.isSome_some, Bool.or_true]

/-- The search finds the names that are bound in the function or in an enclosing one. -/
private theorem Scope.searchEnv_isSome (g : Scope) (identifier : Name) :
    (g.searchEnv identifier).1.isSome = g.identifierExistsInScope identifier := by
  have chain := searchChain_isSome identifier g.parents
  rw [Scope.identifierExistsInScope, List.any_cons, ← chain]
  cases own : g.self.env.lookup identifier with
  | some varRef => simp only [Scope.searchEnv, own, Option.isSome_some, Bool.true_or]
  | none =>
    cases above : searchChain identifier g.parents with
    | mk found parents' =>
      cases found with
      | none => simp only [Scope.searchEnv, own, above, Option.isSome_none, Bool.false_or]
      | some upval => simp only [Scope.searchEnv, own, above, Option.isSome_some, Bool.or_true]

/-- The instruction that the scope of an application asks for: a call of the qualified name, or a call
through the variable that the name is bound to. -/
def CallsByScope (g' : Scope) (out : VarRef) (module : Option Name) (name : Name) (arity : UInt8)
    (operands : List VarRef) (instr : Instruction) : Prop :=
  match module with
  | some module => instr = .call out (qualifiedName module name) arity operands
  | none => ∃ varRef, (g'.searchEnv name).1 = some varRef ∧ instr = .callLocal out varRef operands

/-- The code of an application evaluates its arguments and ends in the instruction that its scope asks
for, with the registers of the arguments as operands. -/
def ResolvesByScope (g : Scope) (out : VarRef) (module : Option Name) (name : Name) (args : List Expr)
    (code : Bytecode) (g' : Scope) : Prop :=
  ∃ res instr operands g₁ g₂, generateArgs g args = .ok (res, g₁) ∧ g₁.argLocations args = .ok (operands, g₂) ∧
    code = res ++ [instr] ∧ CallsByScope g' out module name (UInt8.ofNat args.length) operands instr

/-- No built-in operation is a call. -/
private theorem builtin_not_call {name : Name} {emitter : Emitter} {out : VarRef} {operands : List VarRef}
    {instr : Instruction} (found : builtins.lookup name = some emitter)
    (emitted : emitter out operands = .ok instr) : instr.variadic = false :=
  (builtins_lookup_sound found).variadic _ _ _ emitted

/-- A call with a name in scope resolves by scope exactly when its name is not a built-in operation. -/
theorem call_resolves_iff {g g' : Scope} {out : VarRef} {module : Option Name} {name : Name} {args : List Expr}
    {code : Bytecode} (identifier : IsIdentifier name)
    (bound : module = none → g'.identifierExistsInScope name)
    (accepted : generateExpr g out (.apply module name args) = .ok (code, g')) :
    ResolvesByScope g out module name args code g' ↔ ¬ IsBuiltin name := by
  have ⟨notAnd, notOr⟩ : name ≠ bytes "&&" ∧ name ≠ bytes "||" := not_or.mp identifier.not_shortCircuit
  rw [generateExpr.eq_def] at accepted
  simp only [notAnd, notOr, if_false, Except.bind_eq_ok, Prod.exists, Except.pure_eq_ok, Prod.mk.injEq] at accepted
  obtain ⟨res, g₁, evaluated, operands, g₂, popped, me, g₃, applied, rfl, rfl⟩ := accepted
  unfold Scope.applyOp at applied
  constructor
  · rintro ⟨res', instr, operands', g₁', g₂', evaluated', popped', same, calls⟩ builtin
    obtain ⟨emitter, found⟩ := Option.isSome_iff_exists.mp builtin
    obtain rfl : me = instr := (List.append_inj' same rfl).2 |> List.singleton_inj.mp
    simp only [found, Except.bind_eq_ok, Except.pure_eq_ok, Prod.mk.injEq] at applied
    obtain ⟨_, emitted, rfl, rfl⟩ := applied
    have plain := builtin_not_call found emitted
    cases module with
    | some module =>
      rw [show _ = Instruction.call .. from calls] at plain
      cases plain
    | none =>
      obtain ⟨varRef, _, rfl⟩ := calls
      cases plain
  · intro ordinary
    have absent : builtins.lookup name = none := by
      rw [IsBuiltin, Bool.not_eq_true, Option.isSome_eq_false_iff] at ordinary
      exact Option.isNone_iff_eq_none.mp ordinary
    simp only [absent, Except.ok.injEq] at applied
    refine ⟨res, me, operands, g₁, g₂, evaluated, popped, rfl, ?_⟩
    have again := g₂.searchEnv_again name
    have inScope := g₂.searchEnv_isSome name
    have extended := (g₂.genericApply_extends module name out operands (UInt8.ofNat args.length))
    rw [applied] at extended
    cases module with
    | some module =>
      unfold Scope.genericApply at applied
      cases found : g₂.searchEnv name with
      | mk varRef g₄ =>
        rw [found] at applied
        cases varRef <;> exact (Prod.mk.inj applied).1.symm
    | none =>
      rw [← extended.identifierExistsInScope, bound rfl] at inScope
      obtain ⟨varRef, same⟩ := Option.isSome_iff_exists.mp inScope
      cases found : g₂.searchEnv name with
      | mk varRef' g₄ =>
        rw [found] at same again
        obtain rfl : varRef' = some varRef := same
        unfold Scope.genericApply at applied
        rw [found] at applied
        obtain ⟨rfl, rfl⟩ := Prod.mk.inj applied
        exact ⟨varRef, congrArg Prod.fst again, rfl⟩

theorem isIdentifier_of_bytes {name : Name} (head : name.head?.any isLowercase)
    (all : name.all isIdentifierByte) : IsIdentifier name := by
  refine ⟨?_, List.all_eq_true.mp all⟩
  obtain ⟨first, found, lower⟩ := Option.any_eq_true _ _ |>.mp head
  exact ⟨first, found, lower⟩

/-- A function body without variables. -/
def plainScope : Scope :=
  { self := { varCount := 0, moduleName := bytes "Main", functionName := bytes "run", env := [], upvals := [] }
    parents := [] }

/-- A closure in a function with a variable `push`. -/
def closureScope : Scope :=
  { self := { varCount := 0, moduleName := bytes "Main", functionName := bytes "run", env := [], upvals := [] }
    parents := [{ varCount := 1, moduleName := bytes "Main", functionName := bytes "main",
                  env := [(bytes "push", .register 1)], upvals := [] }] }

/-- In the closure, `Stack.push(1)` calls the function of the module, and `push(1)` the captured variable. -/
theorem call_resolves_captured :
    (∃ code g', generateExpr closureScope (.register 0)
        (.apply (some (bytes "Stack")) (bytes "push") [.int (bytes "1")]) = .ok (code, g') ∧
      ResolvesByScope closureScope (.register 0) (some (bytes "Stack")) (bytes "push") [.int (bytes "1")] code g') ∧
    ∃ code g', generateExpr closureScope (.register 0) (.apply none (bytes "push") [.int (bytes "1")]) =
        .ok (code, g') ∧
      ResolvesByScope closureScope (.register 0) none (bytes "push") [.int (bytes "1")] code g' := by
  have identifier : IsIdentifier (bytes "push") := isIdentifier_of_bytes (by decide) (by decide)
  have qualified : generateExpr closureScope (.register 0)
      (.apply (some (bytes "Stack")) (bytes "push") [.int (bytes "1")]) =
      .ok ([.storeInt (.register 1) 1, .call (.register 0) (bytes "Stack.push") 1 [.register 1]],
        { closureScope with self := { closureScope.self with upvals := [.register 1] } }) := by
    decide
  have captured : generateExpr closureScope (.register 0) (.apply none (bytes "push") [.int (bytes "1")]) =
      .ok ([.storeInt (.register 1) 1, .callLocal (.register 0) (.upvalue 0) [.register 1]],
        { closureScope with self := { closureScope.self with upvals := [.register 1] } }) := by
    decide
  exact ⟨⟨_, _, qualified, (call_resolves_iff identifier (fun none => by cases none) qualified).mpr (by decide)⟩,
    ⟨_, _, captured, (call_resolves_iff identifier (fun _ => by decide) captured).mpr (by decide)⟩⟩

/-- `Log.print(1)` prints instead of calling the function `print` of `Log`. -/
theorem call_resolves_fails : ¬ ∀ g out module name args code g', IsIdentifier name →
    (module = none → Scope.identifierExistsInScope g' name) →
    generateExpr g out (.apply module name args) = .ok (code, g') →
    ResolvesByScope g out module name args code g' := by
  intro resolves
  have accepted : generateExpr plainScope (.register 0)
      (.apply (some (bytes "Log")) (bytes "print") [.int (bytes "1")]) =
      .ok ([.storeInt (.register 1) 1, .print (.register 1)], plainScope) := by decide
  have identifier : IsIdentifier (bytes "print") := isIdentifier_of_bytes (by decide) (by decide)
  have qualified : some (bytes "Log") = none → plainScope.identifierExistsInScope (bytes "print") := nofun
  obtain ⟨res, instr, operands, _, _, _, _, same, calls⟩ := resolves _ _ _ _ _ _ _ identifier qualified accepted
  have split : [Instruction.storeInt (.register 1) 1] ++ [.print (.register 1)] = res ++ [instr] := same
  obtain rfl : .print (.register 1) = instr := List.singleton_inj.mp (List.append_inj' split rfl).2
  cases (show Instruction.print _ = Instruction.call .. from calls)

end Owl.Compiler
