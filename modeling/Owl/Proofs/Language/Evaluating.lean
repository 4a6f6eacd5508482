import Owl.Proofs.Language.Straight

/-! # Generated code evaluates its source

Code that the generator has made of an expression, placed in loaded code, brings the machine to where the
evaluator says: to the end of the code, with the value in the output register, with the same store, and with
the variables of the scope in their registers. By induction on the syntax, with what calls do as a hypothesis.
-/

namespace Owl.Language

open Owl.Compiler Owl.Runtime Owl.Format StateExcept

variable {World : Type}

section Pieces

variable {number : Bytes → Option ℕ} {context : Context World} {image : Image} {frame : ℕ}

section Sides

variable {g g₁ g₂ g₃ g₄ : Scope} {out reg skip : UInt8} {thenCode elseCode jumps code : Bytecode} {vm : Vm World}

/-- From a test on, the machine goes through one of the sides to the end of both. -/
private theorem joined_meets {α : Type} {host : Host World} {x y : Predicted Stop α} {holds : α → Vm World → Prop}
    (placed : Placed number vm.code vm.ip (.test (.register reg) skip :: (elseCode ++ jumps ++ thenCode)))
    (skips : skip.toNat = spanOf (elseCode ++ jumps) + 1) (leaps : Leaps jumps thenCode)
    (moved : ∀ a vm' ip, holds a vm' → holds a { vm' with ip }) (same : ∀ a vm', holds a vm' → vm'.code = vm.code)
    (thenMeets : ∀ ip, Placed number vm.code ip thenCode →
      Meets (step host) { vm with ip } x fun a vm' => vm'.ip = ip + spanOf thenCode ∧ holds a vm')
    (elseMeets : ∀ ip, Placed number vm.code ip elseCode →
      Meets (step host) { vm with ip } y fun a vm' => vm'.ip = ip + spanOf elseCode ∧ holds a vm') :
    Meets (step host) vm (if truthy (register vm reg) then x else y) fun a vm' =>
      vm'.ip = vm.ip + spanOf (.test (.register reg) skip :: (elseCode ++ jumps ++ thenCode)) ∧ holds a vm' := by
  obtain ⟨test, rest⟩ := placed
  obtain ⟨id, -, holdsTest⟩ := test.holds
  have width : (Instruction.test (.register reg) skip).span = 3 := rfl
  have small := test.inFrame (.register reg) (by simp [Instruction.refs, Instruction.sources]) reg rfl
  have stepped := @test_step _ host _ _ _ small holdsTest
  rw [width, placed_append, placed_append] at rest
  rw [spanOf_cons, width, spanOf_append]
  split at stepped
  · next truth =>
    rw [if_pos truth]
    refine .step stepped ((thenMeets _ ?_).mono ?_)
    · rw [skips]
      convert rest.2 using 1
      omega
    · rintro a vm' - ⟨ip, inside⟩
      exact ⟨by omega, inside⟩
  · next truth =>
    rw [if_neg truth]
    refine .step stepped ((elseMeets _ rest.1.1).further ?_)
    rintro a vm' ⟨ip, inside⟩
    obtain ⟨rfl, rfl⟩ | ⟨-, leap, rfl, leaped⟩ := leaps
    · refine ⟨vm', .refl, ?_, inside⟩
      simp only [List.append_nil, show spanOf [] = 0 from rfl]
      omega
    · obtain ⟨jump, -⟩ := rest.1.2
      have leapWidth : (Instruction.jmp leap).span = 2 := rfl
      rw [← same a vm' inside, ← ip] at jump
      obtain ⟨id, -, holdsJump⟩ := jump.holds
      refine ⟨_, .single (jmp_step holdsJump), ?_, moved a vm' _ inside⟩
      rw [spanOf_append, spanOf_cons, leapWidth, show spanOf [] = 0 from rfl]
      dsimp only
      omega

theorem Ready.at {content : Content} {state : State World} (ready : Ready image frame g out content state vm) (ip : ℕ) :
    Ready image frame g out content state { vm with ip } :=
  ⟨⟨ready.executing.image, ready.executing.frame⟩, ⟨ready.represents.store, ready.represents.locals⟩, ready.content⟩

/-- A side that is evaluated from a given state on, in place or as the other one. -/
theorem Evaluates.side {content : Content} {state : State World} {bindings : Bindings} {ip : ℕ}
    {eval : Content → Eval World Content} (evaluates : Evaluates number context image frame g out bindings code g₁ eval)
    (suited : Suited context g) (output : Output g out) (names : Scoped context g₁)
    (ready : Ready image frame g out content state vm) (placed : Placed number vm.code ip code) :
    Meets (step context.host) { vm with ip } (eval content state) fun result vm' =>
      vm'.ip = ip + spanOf code ∧ Evaluated g g₁ out bindings state vm result vm' := by
  rw [← ready.executing.code] at placed
  apply (evaluates suited output names _ content state (ready.at ip) placed).mono
  rintro result vm' - ⟨position, evaluated⟩
  exact ⟨position, evaluated.between⟩

/-- The right side is evaluated where the left one decides so. -/
private theorem evaluates_shortCircuit {left : Expr} {leftCode : Bytecode} {bindings : Bindings}
    {leftEval thenEval elseEval : Content → Eval World Content} (covered : exprCovered left)
    (generated : generateExpr g (.register out) left = .ok (leftCode, g₁))
    (first : Evaluates number context image frame g out left.bindings leftCode g₁ leftEval) (grown : Grown g₁ g₂)
    (thenSide : Evaluates number context image frame g₁ out bindings thenCode g₂ thenEval)
    (elseSide : Evaluates number context image frame g₁ out bindings elseCode g₂ elseEval)
    (joined : genBranchInto leftCode (.register out) thenCode elseCode = .ok code) :
    Evaluates number context image frame g out (left.bindings ++ bindings.raise left.leak) code g₂ (fun content => do
      let left ← known (← leftEval content)
      if truthy left then thenEval (some left) else elseEval (some left)) := by
  intro suited output names vm content state ready placed
  obtain ⟨skip, jumps, split, skips, leaps⟩ := genBranchInto_offsets joined
  obtain rfl : code = leftCode ++ .test (.register out) skip :: (elseCode ++ jumps ++ thenCode) := by simp [split]
  obtain ⟨_, _, run⟩ := traced left _ _ _ _ generated
  have suited₁ := suited.generated run (bindings_within left covered)
  have output₁ := output.generated run
  rw [placed_append] at placed
  apply Meets.stateBind (first suited output (names.before grown) vm content state ready placed.1)
  rintro content₁ state₁ vm₁ - ⟨ip, evaluated⟩
  cases content₁ with
  | none => exact .nothing
  | some term =>
    change Meets _ _ ((if truthy term then thenEval (some term) else elseEval (some term)) state₁) _
    obtain rfl : register vm₁ out = term := evaluated.content term rfl
    have executing := ready.executing.keeps evaluated.keeps
    have ready₁ : Ready image frame g₁ out (some (register vm₁ out)) state₁ vm₁ :=
      ⟨executing, evaluated.represents, evaluated.content⟩
    have rest := placed.2
    rw [executing.code, ← ip] at rest
    rw [ite_apply]
    apply (joined_meets rest skips leaps
      (fun _ _ ip inside => inside.withIp ip) (fun _ _ inside => congrArg Image.code inside.keeps.image)
      (fun ip here => thenSide.side suited₁ output₁ names ready₁ here)
      (fun ip here => elseSide.side suited₁ output₁ names ready₁ here)).mono
    rintro result vm₂ - ⟨ip₂, evaluated₂⟩
    refine ⟨by rw [ip₂, ip, spanOf_append, Nat.add_assoc], .after evaluated.keeps (by rw [run.frame.1]; omega)
      evaluated₂ ?_⟩
    intro none
    rw [List.append_eq_nil_iff] at none
    exact ⟨List.map_eq_nil_iff.mp none.2, evaluated.silent none.1⟩

/-- One of the blocks is evaluated, as the condition decides. -/
private theorem evaluates_branch {condition : Expr} {conditionOut : VarRef} {conditionCode : Bytecode}
    {first second : Bindings} {thenEval elseEval : Content → Eval World Content}
    (evaluate : AllEvaluate number context image frame condition) (covered : exprCovered condition)
    (none : condition.bindings = []) {thenBody elseBody : List Expr} {thenTrace elseTrace : GenTrace}
    (thenRun : Generates g (.block (.register out) thenBody) thenCode g₁ thenTrace)
    (elseRun : Generates g₁ (.block (.register out) elseBody) elseCode g₂ elseTrace)
    (thenWithin : (exprBindings thenBody).Within (leaks thenBody))
    (elseWithin : (exprBindings elseBody).Within (leaks elseBody))
    (thenSide : Evaluates number context image frame g out first thenCode g₁ thenEval)
    (elseSide : Evaluates number context image frame g₁ out second elseCode g₂ elseEval)
    (allocated : g₂.push = .ok (conditionOut, g₃))
    (generated : generateExpr g₃ conditionOut condition = .ok (conditionCode, g₄))
    (joined : genBranchInto conditionCode conditionOut thenCode elseCode = .ok code) (m n : ℕ) :
    Evaluates number context image frame g out (first ++ second.raise m ++ condition.bindings.raise n) code g₄
      (fun content => do
        let condition ← known (← evalExpr context Option.none condition)
        if truthy condition then thenEval content else elseEval content) := by
  rw [none, show Bindings.raise [] n = [] from rfl, List.append_nil]
  intro suited output names vm content state ready placed
  have suited₁ := suited.generated thenRun thenWithin
  have output₁ := output.generated thenRun
  have suited₂ := suited₁.generated elseRun elseWithin
  have lower₁ := thenRun.frame.1
  have lower₂ := elseRun.frame.1
  obtain ⟨cond, rfl, next, count, env, suited₃, output₃⟩ := suited₂.push allocated
  obtain ⟨_, _, run⟩ := traced condition _ _ _ _ generated
  have grown₂ : Grown g₂ g₄ := Grown.trans (.of_env env) (.of_run run)
  have grown₁ : Grown g₁ g₄ := Grown.trans (.of_run elseRun) grown₂
  obtain ⟨skip, jumps, split, skips, leaps⟩ := genBranchInto_offsets joined
  obtain rfl : code = conditionCode ++ .test (.register cond) skip :: (elseCode ++ jumps ++ thenCode) := by
    simp [split]
  rw [placed_append] at placed
  have start : Represents g₃ state vm :=
    ((ready.represents.scope (.of_run thenRun)).scope (.of_run elseRun)).scope (.of_env env)
  apply Meets.stateBind (evaluate g₃ cond conditionCode g₄ generated covered suited₃ output₃ names vm Option.none state
    ⟨ready.executing, start, by simp⟩ placed.1)
  rintro value state₁ vm₁ - ⟨ip, evaluated⟩
  cases value with
  | none => exact .nothing
  | some term =>
    change Meets _ _ ((if truthy term then thenEval content else elseEval content) state₁) _
    obtain rfl : register vm₁ cond = term := evaluated.content term rfl
    have low (reg : UInt8) (lower : reg.toNat ≤ g.self.varCount.toNat) : Below g₃ cond reg :=
      ⟨by rw [count]; omega, by rintro rfl; omega⟩
    have keeps : Keeps (Below g out) vm vm₁ := evaluated.keeps.mono fun reg below => low reg below.1
    have same := evaluated.silent none
    have ready₁ : Ready image frame g out content state₁ vm₁ := by
      refine ⟨ready.executing.keeps keeps, ?_, fun term known => ?_⟩
      · exact ready.represents.keeps keeps (suited.below output) evaluated.represents.store same
      · exact (evaluated.keeps.registers out (low out output.allocated)).trans (ready.content term known)
    have rest := placed.2
    rw [ready₁.executing.code, ← ip] at rest
    have thenMeets (ip : ℕ) (here : Placed number vm₁.code ip thenCode) :
        Meets (step context.host) { vm₁ with ip } (thenEval content state₁) fun result vm' =>
          vm'.ip = ip + spanOf thenCode ∧ Evaluated g g₄ out (first ++ second.raise m) state₁ vm₁ result vm' := by
      apply (thenSide.side suited output (names.before grown₁) ready₁ here).mono
      rintro result vm' - ⟨position, inside⟩
      refine ⟨position, (Evaluated.after (.refl _ _) (Nat.le_refl _) inside fun none => ?_).scope grown₁⟩
      exact ⟨(List.append_eq_nil_iff.mp none).1, rfl⟩
    have elseMeets (ip : ℕ) (here : Placed number vm₁.code ip elseCode) :
        Meets (step context.host) { vm₁ with ip } (elseEval content state₁) fun result vm' =>
          vm'.ip = ip + spanOf elseCode ∧ Evaluated g g₄ out (first ++ second.raise m) state₁ vm₁ result vm' := by
      have ready₂ : Ready image frame g₁ out content state₁ vm₁ :=
        ⟨ready₁.executing, ready₁.represents.scope (.of_run thenRun), ready₁.content⟩
      apply (elseSide.side suited₁ output₁ (names.before grown₂) ready₂ here).mono
      rintro result vm' - ⟨position, inside⟩
      refine ⟨position, (Evaluated.after (.refl _ _) (by omega) inside fun none => ?_).scope grown₂⟩
      exact ⟨List.map_eq_nil_iff.mp (List.append_eq_nil_iff.mp none).2, rfl⟩
    rw [ite_apply]
    apply (joined_meets rest skips leaps (fun _ _ ip inside => inside.withIp ip)
      (fun _ _ inside => congrArg Image.code inside.keeps.image) thenMeets elseMeets).mono
    rintro result vm₂ - ⟨ip₂, inside⟩
    refine ⟨by rw [ip₂, ip, spanOf_append, Nat.add_assoc], ?_⟩
    exact .after keeps (Nat.le_refl _) inside fun none => ⟨none, same⟩

/-- A variable takes the value of its expression, and the output register stays as it is. -/
private theorem evaluates_binding {var : VarRef} {left : Name} {right : Expr}
    (evaluate : AllEvaluate number context image frame right) (covered : exprCovered right)
    (allocated : g.push = .ok (var, g₁)) (generated : generateExpr g₁ var right = .ok (code, g₂)) :
    Evaluates number context image frame g out (Expr.let left right).bindings code (g₂.insertEnv left var)
      (fun content => do
        let right ← evalExpr context none right
        bindLocal left right
        return content) := by
  intro suited output names vm content state ready placed
  obtain ⟨reg, rfl, next, count, env, suited₁, output₁⟩ := suited.push allocated
  have names₂ : Scoped context g₂ := by
    intro x ref found
    by_cases same : x = left
    · exact names x (.register reg) (by rw [Scope.lookup_insertEnv, if_pos same])
    · exact names x ref (by rwa [Scope.lookup_insertEnv, if_neg same])
  apply Meets.stateBind (evaluate _ _ _ _ generated covered suited₁ output₁ names₂ vm none state
    ⟨ready.executing, ready.represents.scope (.of_env env), by simp⟩ placed)
  rintro value state₁ vm₁ - ⟨ip, evaluated⟩
  refine .result ⟨ip, ?_, ⟨evaluated.represents.store, fun x term found => ?_⟩, fun term known => ?_, fun none => ?_⟩
  · exact evaluated.keeps.mono fun r below => ⟨by rw [count]; have := below.1; omega, by rintro rfl; have := below.1; omega⟩
  · rw [Scope.lookup_insertEnv]
    by_cases same : x = left
    · subst same
      rw [List.lookup_cons_self] at found
      exact ⟨reg, if_pos rfl, evaluated.content term (Option.some.inj found)⟩
    · rw [List.lookup_cons, beq_false_of_ne same] at found
      rw [if_neg same]
      exact evaluated.represents.locals x term found
  · have kept := evaluated.keeps.registers out ⟨by rw [count]; have := output.allocated; omega, by
      rintro rfl
      have := output.allocated
      omega⟩
    exact kept.trans (ready.content term known)
  · simp [Expr.bindings] at none

end Sides

/-- The value of an expression goes where the generator has put it. -/
theorem allEvaluate (calls : CallsMeet number context image frame) (e : Expr) :
    AllEvaluate number context image frame e := by
  induction e with
  | int digits =>
    intro g out code g' generated covered
    simp only [generateExpr] at generated
    split at generated
    · next val parsed =>
      cases generated
      rw [exprCovered, parsed, Option.any_some, decide_eq_true_eq] at covered
      exact evaluates_int parsed covered
    · contradiction
  | ident name =>
    intro g out code g' generated covered suited
    simp only [generateExpr] at generated
    cases bound : g.self.env.lookup name with
    | none =>
      have absent : (g.searchEnv name).1 = none := by
        rw [Scope.searchEnv, bound, suited.parents]
        rfl
      split at generated
      · next found =>
        rw [found] at absent
        contradiction
      · contradiction
    | some ref =>
      rw [Scope.searchEnv, bound] at generated
      cases generated
      exact evaluates_ident bound suited
  | true =>
    intro g out code g' generated covered
    cases generated
    exact evaluates_fixed rfl rfl (show (OP_STORE_TRUE, opStoreTrue) ∈ _ by simp [handlers]) (by decide)
      fun content => by rw [evalExpr]
  | false =>
    intro g out code g' generated covered
    cases generated
    exact evaluates_fixed rfl rfl (show (OP_STORE_FALSE, opStoreFalse) ∈ _ by simp [handlers]) (by decide)
      fun content => by rw [evalExpr]
  | nil =>
    intro g out code g' generated covered
    cases generated
    exact evaluates_fixed rfl rfl (show (OP_STORE_NIL, opStoreNil) ∈ _ by simp [handlers]) (by decide)
      fun content => by rw [evalExpr]
  | str | capture | anonFn =>
    intro g out code g' generated covered suited output names vm content state ready placed
    simp only [evalExpr]
    exact .nothing
  | let_ left right evaluate =>
    intro g out code g' generated covered
    simp only [generateExpr] at generated
    split at generated
    · contradiction
    · simp only [Except.bind_eq_ok, Prod.exists, Except.pure_eq_ok, Prod.mk.injEq] at generated
      obtain ⟨var, g₁, allocated, bound, g₂, value, rfl, rfl⟩ := generated
      simp only [evalExpr]
      rw [exprCovered] at covered
      exact evaluates_binding evaluate covered allocated value
  | apply module name args evaluate =>
    intro g out code g' generated covered
    rw [exprCovered, Bool.and_eq_true, Bool.or_eq_true, decide_eq_true_eq, beq_iff_eq] at covered
    have decided : bytes "||" ≠ bytes "&&" := by decide
    by_cases named : IsShortCircuit name
    · rcases args with _ | ⟨left, _ | ⟨right, rest⟩⟩
      · rcases named with rfl | rfl <;> simp [generateExpr, decided] at generated
      · rcases named with rfl | rfl <;> simp [generateExpr, decided] at generated
      · rw [List.forall_mem_cons, List.forall_mem_cons] at evaluate
        rw [allCovered, allCovered, Bool.and_eq_true, Bool.and_eq_true] at covered
        have bindings : (Expr.apply module name (left :: right :: rest)).bindings =
            left.bindings ++ right.bindings.raise left.leak := by
          rw [Expr.bindings.eq_def]
          simp only [named, if_true]
        rw [bindings]
        rcases named with rfl | rfl
        · simp only [generateExpr, if_true, Except.bind_eq_ok, Prod.exists, Except.pure_eq_ok,
            Prod.mk.injEq] at generated
          obtain ⟨leftCode, g₁, first, rightCode, g₂, second, result, joined, rfl, rfl⟩ := generated
          obtain ⟨_, _, run⟩ := traced right _ _ _ _ second
          have sides := evaluates_shortCircuit covered.2.1 first (evaluate.1 _ _ _ _ first covered.2.1) (.of_run run)
            (evaluate.2.1 _ _ _ _ second covered.2.2.1) (evaluates_nil (.of_run run)) joined
          simpa only [evalExpr, if_true] using sides
        · simp only [generateExpr, decided, if_false, if_true, Except.bind_eq_ok, Prod.exists,
            Except.pure_eq_ok, Prod.mk.injEq] at generated
          obtain ⟨leftCode, g₁, first, rightCode, g₂, second, result, joined, rfl, rfl⟩ := generated
          obtain ⟨_, _, run⟩ := traced right _ _ _ _ second
          have sides := evaluates_shortCircuit covered.2.1 first (evaluate.1 _ _ _ _ first covered.2.1) (.of_run run)
            (evaluates_nil (.of_run run)) (evaluate.2.1 _ _ _ _ second covered.2.2.1) joined
          simpa only [evalExpr, decided, if_false, if_true] using sides
    · obtain ⟨notAnd, notOr⟩ : name ≠ bytes "&&" ∧ name ≠ bytes "||" := not_or.mp named
      rw [generateExpr.eq_def] at generated
      simp only [notAnd, notOr, if_false, Except.bind_eq_ok, Prod.exists, Except.pure_eq_ok, Prod.mk.injEq]
        at generated
      obtain ⟨res, g₁, evaluated, locations, g₂, popped, instr, g₃, finished, rfl, rfl⟩ := generated
      have balanced := covered.1.resolve_left named
      have last : finishOperation g₂ (.register out) locations (.apply module name args) = .ok (instr, g₃) := finished
      obtain ⟨rfl, -, env, parents, moduleName, higher⟩ := argLocations_eq balanced evaluated popped
      have bounded := g₁.self.varCount.toNat_lt
      have length : (argRegisters g args.length).length = args.length := by simp [argRegisters]
      have applied : g₂.applyOp module name (.register out) ((argRegisters g args.length).map .register)
          (UInt8.ofNat (argRegisters g args.length).length) = .ok (instr, g₃) := by rwa [length]
      have same : (fun content => evalExpr context content (.apply module name args)) =
          fun content => evalArgs context args >>= applyTo context module name content := by
        funext content
        rw [evalExpr.eq_def]
        simp only [notAnd, notOr, if_false]
      rw [same]
      apply evaluates_operation evaluate covered.2 balanced evaluated popped last
      have few (inFrame : InFrame (argRegisters g args.length)) : (argRegisters g args.length).length < REGISTER_COUNT := by
        rw [length]
        exact argRegisters_few (by omega) inFrame
      exact fun suited names => finishes_apply few calls suited names env parents moduleName applied
  | if_ condition body elseBody evaluate thenEvaluate elseEvaluate =>
    intro g out code g' generated covered
    simp only [generateExpr, Except.bind_eq_ok, Prod.exists, Except.pure_eq_ok, Prod.mk.injEq] at generated
    obtain ⟨thenCode, g₁, thenOk, elseCode, g₂, elseOk, conditionOut, g₃, allocated, res, g₄, conditionOk, result,
      joined, rfl, rfl⟩ := generated
    simp only [exprCovered, Bool.and_eq_true, List.isEmpty_iff] at covered
    obtain ⟨⟨⟨none, conditionCovered⟩, thenCovered⟩, elseCovered⟩ := covered
    obtain ⟨_, _, thenRun⟩ := generates_block (fun e _ => traced e) thenOk
    obtain ⟨_, _, elseRun⟩ := generates_block (fun e _ => traced e) elseOk
    have sides := evaluates_branch evaluate conditionCovered none thenRun elseRun
      (exprBindings_within (fun e _ => bindings_within e) thenCovered)
      (exprBindings_within (fun e _ => bindings_within e) elseCovered)
      (evaluates_block thenEvaluate thenCovered thenOk) (evaluates_block elseEvaluate elseCovered elseOk)
      allocated conditionOk joined (leaks body) (leaks body + leaks elseBody + 1)
    simp only [evalExpr]
    exact sides
  | tuple elems evaluate =>
    intro g out code g' generated covered
    rw [exprCovered, Bool.and_eq_true, beq_iff_eq] at covered
    simp only [generateExpr, Except.bind_eq_ok, Prod.exists, Except.pure_eq_ok, Prod.mk.injEq] at generated
    obtain ⟨res, g₁, evaluated, locations, g₂, popped, rfl, rfl⟩ := generated
    obtain ⟨rfl, -, -, -, -, higher⟩ := argLocations_eq covered.1 evaluated popped
    have bounded := g₁.self.varCount.toNat_lt
    have few (inFrame : InFrame (argRegisters g elems.length)) : (argRegisters g elems.length).length < 255 := by
      have small := argRegisters_few (by omega) inFrame
      simp only [argRegisters, List.length_map, List.length_range', REGISTER_COUNT] at small ⊢
      omega
    simp only [evalExpr]
    apply evaluates_operation evaluate covered.2 covered.1 evaluated popped rfl
    exact fun _ _ => finishes_tuple few
  | list elems evaluate =>
    intro g out code g' generated covered
    rw [exprCovered, Bool.and_eq_true, beq_iff_eq] at covered
    simp only [generateExpr, Except.bind_eq_ok, Prod.exists, Except.pure_eq_ok, Prod.mk.injEq] at generated
    obtain ⟨res, g₁, evaluated, locations, g₂, popped, rfl, rfl⟩ := generated
    obtain ⟨rfl, few, -⟩ := argLocations_eq covered.1 evaluated popped
    simp only [evalExpr]
    apply evaluates_operation evaluate covered.2 covered.1 evaluated popped rfl
    exact fun _ _ => finishes_list (by simpa [argRegisters] using few)

end Pieces

end Owl.Language
