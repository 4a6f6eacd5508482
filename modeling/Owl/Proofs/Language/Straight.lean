import Owl.Proofs.Language.Scopes

/-! # Instructions, lists and operations

The pieces of generated code that go straight on: single instructions, the expressions of a block, arguments in
consecutive registers, and the instruction that finishes an operation on them.
-/

namespace Owl.Language

open Owl.Compiler Owl.Runtime Owl.Format StateExcept

variable {World : Type}

section Pieces

variable {number : Bytes → Option ℕ} {context : Context World} {image : Image} {frame : ℕ}

theorem Executing.code {vm : Vm World} (executing : Executing image frame vm) : image.code = vm.code :=
  congrArg Image.code executing.image.symm

/-- An instruction that computes a term in the output register, where the evaluation says something. -/
private theorem evaluates_single {g g' : Scope} {out : UInt8} {instr : Instruction} {bindings : Bindings}
    {eval : Content → Eval World Content} (env : g'.self.env = g.self.env)
    (computes : Suited context g → ∀ (vm : Vm World) (content : Content) (state : State World), Represents g state vm →
      PlacedAt number vm.code vm.ip instr → eval content state = .error none ∨ ∃ run : Except Stop (Term × Store World),
        Computes context.host vm out (layout instr).width run ∧
          (∀ result, run = .ok result → result.2.statics = vm.statics) ∧
            eval content state = (run.mapError some).map fun result => (some result.1, { state with store := result.2 })) :
    Evaluates number context image frame g out bindings [instr] g' eval := by
  intro suited output names vm content state ready placed
  rw [ready.executing.code] at placed
  have width : spanOf [instr] = (layout instr).width := placed.1.span
  obtain nothing | ⟨run, computes, records, same⟩ := computes suited vm content state ready.represents placed.1
  · rw [nothing]
    exact .nothing
  · rw [same, width]
    apply (computes.done records state).mono
    exact fun result vm' _ done => ⟨done.ip, done.evaluated suited output ready.represents env bindings⟩

/-- An instruction that stores a term that the evaluation gives. -/
theorem evaluates_value {g : Scope} {out : UInt8} {instr : Instruction} {bindings : Bindings}
    {eval : Content → Eval World Content}
    (stores : Suited context g → ∀ (vm : Vm World) (content : Content) (state : State World), Represents g state vm →
      PlacedAt number vm.code vm.ip instr → eval content state = .error none ∨ ∃ term,
        step context.host vm = .ok ((), stored vm out term (layout instr).width) ∧
          eval content state = .ok (some term, state)) :
    Evaluates number context image frame g out bindings [instr] g eval := by
  refine evaluates_single rfl fun suited vm content state represents placed => ?_
  obtain nothing | ⟨term, stores, same⟩ := stores suited vm content state represents placed
  · exact .inl nothing
  · refine .inr ⟨.ok (term, storeOf vm), stores, fun result done => Except.ok.inj done ▸ rfl, ?_⟩
    rw [same, represents.store]
    rfl

section Leaves

variable {vm : Vm World} {g : Scope} {out : UInt8} {instr : Instruction} {bindings : Bindings}

theorem PlacedAt.writes (placed : PlacedAt number vm.code vm.ip instr) (written : instr.writes = some (.register out)) :
    out.toNat < REGISTER_COUNT :=
  placed.inFrame (.register out) (by simp [Instruction.refs, written]) out rfl

/-- The three instructions that store a fixed term. -/
theorem evaluates_fixed {opcode : UInt8} {term : Term} {eval : Content → Eval World Content}
    (form : layout instr = .plain opcode (operands [.register out])) (written : instr.writes = some (.register out))
    (member : (opcode, (opStore term : Exec World Unit)) ∈ handlers context.host) (known : opcode ≠ 255)
    (value : ∀ content, eval content = pure (some term)) :
    Evaluates number context image frame g out bindings [instr] g eval := by
  refine evaluates_value fun suited vm content state represents placed => .inr ⟨term, ?_, by rw [value]; rfl⟩
  obtain ⟨id, -, holds⟩ := placed.holds
  rw [form] at holds ⊢
  rw [step_eq holds.head member known]
  exact opStore_computes (placed.writes written) holds

/-- A literal below 250 is its first digit. -/
theorem evaluates_int {digits : Bytes} {val : UInt16} (parsed : parseU16 digits = some val) (small : val < 250) :
    Evaluates number context image frame g out bindings [.storeInt (.register out) val] g
      fun content => evalExpr context content (.int digits) := by
  refine evaluates_value fun suited vm content state represents placed => .inr ⟨intFrom val.toUInt64, ?_, ?_⟩
  · obtain ⟨id, -, holds⟩ := placed.holds
    have below : val.toNat < 250 := UInt16.lt_iff_toNat_lt.mp small
    have exact : Arith.literalDrift val = 0 := by
      rw [Arith.literalDrift, if_neg (by omega)]
      omega
    have word : intTerm (val.toNat : ℤ) = intFrom val.toUInt64 := by
      refine (intFrom_eq_intTerm ?_).symm
      rw [UInt16.toNat_toUInt64]
    have dst : out.toNat < REGISTER_COUNT := placed.writes rfl
    rw [← word, step_storeInt dst holds, exact, Int.add_zero]
    rfl
  · simp only [evalExpr, parsed]
    rfl

theorem evaluates_ident {name : Name} {ref : VarRef} (found : g.self.env.lookup name = some ref) :
    Evaluates number context image frame g out bindings [.mov (.register out) ref] g
      fun content => evalExpr context content (.ident name) := by
  refine evaluates_value fun suited vm content state represents placed => ?_
  obtain ⟨reg, rfl, -⟩ := suited.allocated name ref found
  cases value : state.locals.lookup name with
  | none =>
    left
    simp only [evalExpr, readLocal, bind, StateT.bind, value]
    rfl
  | some content =>
    cases content with
    | none =>
      left
      simp only [evalExpr, readLocal, bind, StateT.bind, value]
      rfl
    | some term =>
      right
      obtain ⟨_, bound, same⟩ := represents.locals name term value
      rw [found] at bound
      cases bound
      refine ⟨term, ?_, ?_⟩
      · obtain ⟨id, -, holds⟩ := placed.holds
        have source := placed.inFrame (.register reg) (by simp [Instruction.refs, Instruction.sources]) reg rfl
        have dst : out.toNat < REGISTER_COUNT := placed.writes rfl
        have inFrame : InFrame [out, reg] := by simpa [InFrame] using ⟨dst, source⟩
        rw [step_eq holds.head (show (OP_MOV, opMov) ∈ handlers context.host by simp [handlers]) (by decide), ← same]
        exact opMov_computes inFrame holds
      · simp only [evalExpr, readLocal, bind, StateT.bind, value]
        rfl

end Leaves

section Lists

variable {g g' : Scope} {out : UInt8} {es : List Expr} {code : Bytecode}

private theorem argRegisters_succ {g₁ : Scope} {n : ℕ} (same : g₁.self.varCount.toNat = g.self.varCount.toNat + 1) :
    argRegisters g (n + 1) = UInt8.ofNat (g.self.varCount.toNat + 1) :: argRegisters g₁ n := by
  rw [argRegisters, argRegisters, same]
  rfl

/-- Arguments that keep no register leave their values behind each other. -/
private theorem evaluates_args (evaluate : ∀ e ∈ es, AllEvaluate number context image frame e) (covered : allCovered es)
    (balanced : leaks es = 0) (generated : generateArgs g es = .ok (code, g')) :
    EvaluatesArgs number context image frame g es.length code g' (evalArgs context es) := by
  induction es generalizing g code with
  | nil =>
    cases generated
    intro suited names vm state executing represents placed
    rw [evalArgs]
    exact .result ⟨rfl, .refl _ _, represents, rfl, rfl⟩
  | cons e es ih =>
    simp only [generateArgs, Except.bind_eq_ok, Prod.exists, Except.pure_eq_ok, Prod.mk.injEq] at generated
    obtain ⟨argOut, g₁, allocated, first, g₂, head, rest, g₃, tail, rfl, rfl⟩ := generated
    rw [allCovered, Bool.and_eq_true] at covered
    rw [leaks, Nat.add_eq_zero_iff] at balanced
    rw [List.forall_mem_cons] at evaluate
    intro suited names vm state executing represents placed
    obtain ⟨out, rfl, next, count, env, suited₁, output⟩ := suited.push allocated
    obtain ⟨_, _, headRun⟩ := traced e _ _ _ _ head
    obtain ⟨_, _, tailRun⟩ := generates_args (fun e _ => traced e) tail
    rw [placed_append] at placed
    have moved : g₂.self.varCount.toNat = out.toNat := by
      rw [headRun.frame.1, count, Piece.leak, balanced.1, Nat.add_zero]
    have suited₂ := suited₁.generated headRun (bindings_within e covered.1)
    rw [evalArgs]
    apply Meets.stateBind
    · apply evaluate.1 _ _ _ _ head covered.1 suited₁ output (names.before (.of_run tailRun)) vm none state _ placed.1
      exact ⟨executing, represents.scope (.of_env env), by simp⟩
    rintro content state₁ vm₁ - ⟨ip, evaluated⟩
    cases content with
    | none => exact .nothing
    | some term =>
      change Meets _ _ ((evalArgs context es >>= fun terms => pure (term :: terms)) state₁) _
      apply Meets.stateBind
      · apply ih evaluate.2 covered.2 balanced.2 tail suited₂ names vm₁ state₁ (executing.keeps evaluated.keeps)
          evaluated.represents
        rw [ip]
        exact placed.2
      rintro terms state₂ vm₂ - ⟨ip₂, evaluated₂⟩
      refine .result ⟨by rw [ip₂, ip, spanOf_append, Nat.add_assoc], ?_, evaluated₂.represents, ?_, ?_⟩
      · have lower (reg : UInt8) (low : reg.toNat ≤ g.self.varCount.toNat) : Below g₁ out reg :=
          ⟨by rw [count]; omega, by rintro rfl; omega⟩
        exact (evaluated.keeps.mono lower).trans (evaluated₂.keeps.mono fun reg low => by omega)
      · have register := evaluated₂.keeps.registers out (Nat.le_of_eq moved.symm)
        rw [List.length_cons, argRegisters_succ (moved.trans next), List.map_cons, ← next, UInt8.ofNat_toNat,
          register, evaluated.content term rfl]
        exact congrArg (term :: ·) evaluated₂.terms
      · exact evaluated₂.silent.trans (evaluated.silent (bindings_eq_nil e balanced.1))

/-- No code at all leaves a value where it is, in any later scope. -/
theorem evaluates_nil {bindings : Bindings} (grown : Grown g g') :
    Evaluates number context image frame g out bindings [] g' fun content => pure content := by
  intro suited output names vm content state ready placed
  exact .result ⟨rfl, .refl _ _, ready.represents.scope grown, ready.content, fun _ => rfl⟩

/-- An expression before others of its block. -/
theorem Evaluates.append {g₁ : Scope} {e : Expr} {first rest : Bytecode} {eval eval' : Content → Eval World Content}
    (covered : exprCovered e) (generated : generateExpr g (.register out) e = .ok (first, g₁)) {trace : GenTrace}
    (tail : Generates g₁ (.exprs (.register out) es) rest g' trace)
    (head : Evaluates number context image frame g out e.bindings first g₁ eval)
    (others : Evaluates number context image frame g₁ out (exprBindings es) rest g' eval') :
    Evaluates number context image frame g out (exprBindings (e :: es)) (first ++ rest) g'
      fun content => eval content >>= eval' := by
  intro suited output names vm content state ready placed
  obtain ⟨_, _, run⟩ := traced e _ _ _ _ generated
  rw [placed_append] at placed
  apply Meets.stateBind (head suited output (names.before (.of_run tail)) vm content state ready placed.1)
  rintro content₁ state₁ vm₁ - ⟨ip, evaluated⟩
  apply Meets.mono
  · apply others (suited.generated run (bindings_within e covered)) (output.generated run) names vm₁ content₁ state₁
      ⟨ready.executing.keeps evaluated.keeps, evaluated.represents, evaluated.content⟩
    rw [ip]
    exact placed.2
  rintro result vm₂ - ⟨ip₂, evaluated₂⟩
  refine ⟨by rw [ip₂, ip, spanOf_append, Nat.add_assoc], .after evaluated.keeps (by rw [run.frame.1]; omega) evaluated₂ ?_⟩
  intro none
  rw [exprBindings, List.append_eq_nil_iff] at none
  exact ⟨List.map_eq_nil_iff.mp none.2, evaluated.silent none.1⟩

private theorem evaluates_exprs (evaluate : ∀ e ∈ es, AllEvaluate number context image frame e) (covered : allCovered es)
    (generated : generateExprs g (.register out) es = .ok (code, g')) :
    Evaluates number context image frame g out (exprBindings es) code g' fun content => evalExprs context content es := by
  induction es generalizing g code with
  | nil =>
    cases generated
    simp only [evalExprs]
    exact evaluates_nil fun _ _ found => found
  | cons e es ih =>
    simp only [generateExprs, Except.bind_eq_ok, Prod.exists, Except.pure_eq_ok, Prod.mk.injEq] at generated
    obtain ⟨first, g₁, head, rest, g₂, tail, rfl, rfl⟩ := generated
    rw [allCovered, Bool.and_eq_true] at covered
    rw [List.forall_mem_cons] at evaluate
    obtain ⟨_, _, run⟩ := generates_exprs (fun e _ => traced e) tail
    simp only [evalExprs]
    exact .append covered.1 head run (evaluate.1 _ _ _ _ head covered.1) (ih evaluate.2 covered.2 tail)

theorem evaluates_block (evaluate : ∀ e ∈ es, AllEvaluate number context image frame e) (covered : allCovered es)
    (generated : generateBlock g (.register out) es = .ok (code, g')) :
    Evaluates number context image frame g out (exprBindings es) code g' fun content => evalBlock context content es := by
  cases es with
  | nil =>
    cases generated
    exact evaluates_fixed rfl rfl (show (OP_STORE_NIL, opStoreNil) ∈ _ by simp [handlers]) (by decide)
      fun content => by rw [evalBlock]
  | cons e es =>
    simp only [generateBlock, Except.bind_eq_ok, Prod.exists, Except.pure_eq_ok, Prod.mk.injEq] at generated
    obtain ⟨first, g₁, head, rest, g₂, tail, rfl, rfl⟩ := generated
    rw [allCovered, Bool.and_eq_true] at covered
    rw [List.forall_mem_cons] at evaluate
    obtain ⟨_, _, run⟩ := generates_exprs (fun e _ => traced e) tail
    simp only [evalBlock]
    exact .append covered.1 head run (evaluate.1 _ _ _ _ head covered.1) (evaluates_exprs evaluate.2 covered.2 tail)

end Lists

section Operations

variable {g g₁ g₂ g₃ : Scope} {out : UInt8} {e : Expr} {es : List Expr} {code : Bytecode} {locations : List VarRef}
  {instr : Instruction}

private theorem perform_run (operation : Operation World) (args : List Term) (state : State World) :
    (do return some (← perform operation args) : Eval World Content) state =
      ((operation args state.store).mapError some).map fun result => (some result.1, { state with store := result.2 }) := by
  cases ran : operation args state.store <;> simp only [perform, bind, StateT.bind, ran] <;> rfl

/-- An instruction that finishes an operation on the given registers. -/
def Finishes (number : Bytes → Option ℕ) (context : Context World) (image : Image) (frame : ℕ) (out : UInt8)
    (regs : List UInt8) (instr : Instruction) (finish : Content → List Term → Eval World Content) : Prop :=
  ∀ (vm : Vm World) (content : Content) (state : State World), Executing image frame vm → storeOf vm = state.store →
    (∀ term, content = some term → register vm out = term) → PlacedAt number vm.code vm.ip instr →
    Meets (step context.host) vm (finish content (regs.map (register vm)) state)
      (Done out (layout instr).width state vm)

/-- Operands that keep no register are taken from where they have been evaluated. -/
theorem argLocations_eq (balanced : leaks es = 0) (generated : generateArgs g es = .ok (code, g₁))
    (popped : g₁.argLocations es = .ok (locations, g₂)) :
    locations = (argRegisters g es.length).map .register ∧ es.length < 256 ∧ g₂.self.env = g₁.self.env ∧
      g₂.parents = g₁.parents ∧ g₂.self.moduleName = g₁.self.moduleName ∧
        g₁.self.varCount.toNat = g.self.varCount.toNat + es.length := by
  obtain ⟨_, _, run⟩ := generates_args (fun e _ => traced e) generated
  have counted := run.frame.1
  rw [Piece.leak, balanced, Nat.add_zero] at counted
  have registers := argLocations_registers popped
  obtain ⟨varCount, total, rfl⟩ := Scope.argLocations_ok popped
  have start : varCount.toNat = g.self.varCount.toNat := by omega
  have bounded := g₁.self.varCount.toNat_lt
  refine ⟨?_, by omega, rfl, rfl, rfl, counted⟩
  rw [registers, registersFrom, argRegisters, List.map_map, start]
  rfl

/-- Operands in the frame are fewer than its registers. -/
theorem argRegisters_few {n : ℕ} (bounded : g.self.varCount.toNat + n < 256) (inFrame : InFrame (argRegisters g n)) :
    n < REGISTER_COUNT := by
  cases n with
  | zero => decide
  | succ n =>
    have last : UInt8.ofNat (g.self.varCount.toNat + 1 + n) ∈ argRegisters g (n + 1) := by
      simp [argRegisters, List.range'_concat]
    have small := inFrame _ last
    rw [ofNat_toNat_of_lt (by omega)] at small
    omega

theorem evaluates_operation {finish : Content → List Term → Eval World Content}
    (evaluate : ∀ e ∈ es, AllEvaluate number context image frame e) (covered : allCovered es) (balanced : leaks es = 0)
    (generated : generateArgs g es = .ok (code, g₁)) (popped : g₁.argLocations es = .ok (locations, g₂))
    (finished : finishOperation g₂ (.register out) locations e = .ok (instr, g₃))
    (last : Suited context g₁ → Scoped context g₁ →
      Finishes number context image frame out (argRegisters g es.length) instr finish) :
    Evaluates number context image frame g out e.bindings (code ++ [instr]) g₃
      fun content => evalArgs context es >>= finish content := by
  intro suited output names vm content state ready placed
  obtain ⟨_, _, run⟩ := generates_args (fun e _ => traced e) generated
  obtain ⟨-, -, env₂, -, -, higher⟩ := argLocations_eq balanced generated popped
  have none : argBindings es = [] := argBindings_eq_nil (fun e _ => bindings_eq_nil e) balanced
  have env : g₃.self.env = g₁.self.env := (finishOperation_extends finished).self.env.trans env₂
  have names₁ : Scoped context g₁ := names.before (.of_env env)
  have suited₁ : Suited context g₁ := suited.generated run (by rw [Piece.bindings, none]; exact .nil _)
  rw [placed_append] at placed
  apply Meets.stateBind (evaluates_args evaluate covered balanced generated suited names₁ vm state ready.executing
    ready.represents placed.1)
  rintro terms state₁ vm₁ - ⟨ip, args⟩
  have executing := ready.executing.keeps args.keeps
  obtain ⟨here, -⟩ := placed.2
  rw [executing.code, ← ip] at here
  have keeps : Keeps (Below g out) vm vm₁ := args.keeps.mono fun _ below => below.1
  rw [show terms = _ from args.terms]
  apply Meets.mono
  · apply last suited₁ names₁ vm₁ content state₁ executing args.represents.store _ here
    exact fun term known => (args.keeps.registers out output.allocated).trans (ready.content term known)
  rintro result vm₂ - done
  refine ⟨?_, .after keeps (by omega) (done.evaluated suited₁ (output.generated run) args.represents env []) ?_⟩
  · rw [done.ip, ip, spanOf_append, Nat.add_assoc, ← here.span]
    rfl
  · exact fun _ => ⟨rfl, args.silent⟩

section Finishes

variable {regs : List UInt8}

theorem PlacedAt.registers {vm : Vm World} (placed : PlacedAt number vm.code vm.ip instr)
    (written : instr.writes = some (.register out)) (taken : instr.operands = regs.map .register) :
    InFrame (out :: regs) := by
  refine List.forall_mem_cons.mpr ⟨placed.writes written, fun reg member => ?_⟩
  refine placed.inFrame (.register reg) ?_ reg rfl
  rw [Instruction.refs, taken]
  exact List.mem_append_left _ (List.mem_append_right _ (List.mem_map_of_mem member))

/-- An instruction that computes an operation on its registers. -/
theorem finishes_computes {operation : Operation World} (records : operation.KeepsRecords)
    (computes : ∀ vm : Vm World, PlacedAt number vm.code vm.ip instr →
      Computes context.host vm out (layout instr).width (operation (regs.map (register vm)) (storeOf vm))) :
    Finishes number context image frame out regs instr
      fun _ args => do return some (← perform operation args) := by
  intro vm content state executing store known placed
  have ran := perform_run operation (regs.map (register vm)) state
  rw [← store] at ran
  change Meets _ _ ((do return some (← perform operation (regs.map (register vm))) : Eval World Content) state) _
  rw [ran]
  exact (computes vm placed).done (fun result done => records _ _ _ done) state

theorem finishes_tuple {size : UInt8} (few : InFrame regs → regs.length < 255) :
    Finishes number context image frame out regs (.tuple (.register out) size (regs.map .register))
      fun _ elems => do return some (← perform makeTuple elems) := by
  refine finishes_computes makeTuple_keepsRecords fun vm placed => ?_
  obtain ⟨id, -, holds⟩ := placed.holds
  have inFrame := placed.registers rfl rfl
  exact tuple_computes (few (List.forall_mem_cons.mp inFrame).2) inFrame holds

theorem finishes_list {size : UInt8} (few : regs.length < 256) :
    Finishes number context image frame out regs (.list (.register out) size (regs.map .register))
      fun _ elems => do return some (← perform (makeList context.host) elems) := by
  refine finishes_computes (makeList_keepsRecords _) fun vm placed => ?_
  obtain ⟨id, -, holds⟩ := placed.holds
  exact list_computes few (placed.registers rfl rfl) holds

private theorem finishes_builtin {emitter : Emitter} {operation : Operation World} (records : operation.KeepsRecords)
    (realizes : Realizes context.host operation emitter)
    (emitted : emitter (.register out) (regs.map .register) = .ok instr) :
    Finishes number context image frame out regs instr
      fun _ args => do return some (← perform operation args) := by
  refine finishes_computes records fun vm placed => ?_
  obtain ⟨id, -, holds⟩ := placed.holds
  exact realizes vm id out regs instr emitted placed.inFrame holds

private theorem print_run (host : Host World) (term : Term) (args : List Term) (content : Content)
    (state : State World) : (do
      print host (term :: args)
      return content : Eval World Content) state =
    ((host.termPrint state.store.memory state.store.world term).mapError some).map
      fun world => (content, { state with store := { state.store with world } }) := by
  cases ran : host.termPrint state.store.memory state.store.world term <;> simp only [print, bind, StateT.bind, ran] <;> rfl

/-- Printing leaves the output register as it is. -/
private theorem finishes_print (emitted : effect .print (.register out) (regs.map .register) = .ok instr) :
    Finishes number context image frame out regs instr fun content args => do
      print context.host args
      return content := by
  intro vm content state executing store known placed
  rcases regs with _ | ⟨reg, regs⟩
  · cases emitted
  · cases emitted
    obtain ⟨id, -, holds⟩ := placed.holds
    have small := placed.inFrame (.register reg) (by simp [Instruction.refs, Instruction.operands]) reg rfl
    have stepped := @print_step _ context.host _ _ small holds
    have ran := print_run context.host (register vm reg) (regs.map (register vm)) content state
    rw [← store] at ran
    refine (congrArg (Meets _ _ · _) ran).mpr ?_
    change step _ _ = (context.host.termPrint vm.memory vm.world (register vm reg)).map _ at stepped
    change Meets _ _ (((context.host.termPrint vm.memory vm.world (register vm reg)).mapError some).map _) _
    cases printed : context.host.termPrint vm.memory vm.world (register vm reg) with
    | error stop =>
      rw [printed] at stepped
      exact .stop stepped
    | ok world =>
      rw [printed] at stepped
      exact .step stepped (.result ⟨rfl, ⟨rfl, rfl, fun _ _ => rfl, rfl, rfl, fun _ _ => rfl⟩, rfl, rfl, known⟩)

private theorem invoke_run (call : Calls World) (module name : Name) (args : List Term) (state : State World) :
    invoke call module name args state =
      (call module name args state.store).map fun result => (result.1, { state with store := result.2 }) := rfl

/-- A call of a function by its module and its name. -/
private theorem finishes_call {module name : Name} (few : InFrame regs → regs.length < REGISTER_COUNT)
    (calls : CallsMeet number context image frame) :
    Finishes number context image frame out regs
      (.call (.register out) (qualifiedName module name) (UInt8.ofNat regs.length) (regs.map .register))
      fun _ args => invoke context.call module name args := by
  intro vm content state executing store known placed
  obtain ⟨id, named, holds⟩ := placed.holds
  have form : layout (.call (.register out) (qualifiedName module name) (UInt8.ofNat regs.length)
      (regs.map .register)) = .call out (linkName module name regs.length) regs := by
    rw [layout, operands_registers]
    rfl
  rw [form] at named holds ⊢
  have inFrame : InFrame (out :: regs) := placed.registers rfl rfl
  have met := calls vm module name out id regs executing inFrame (few (List.forall_mem_cons.mp inFrame).2) holds named
  rw [store] at met
  change Meets _ _ (invoke context.call module name (regs.map (register vm)) state) _
  rw [invoke_run, Layout.width_call]
  apply Meets.map
  apply met.mono
  rintro result vm' - ⟨ip, keeps, same, content⟩
  exact ⟨ip, keeps, same, rfl, content⟩

/-- A name that is not in the environment is called by its module. -/
private theorem genericApply_call {module : Option Name} {name : Name} {retLoc : VarRef} {arity : UInt8}
    (absent : module = none → (g.searchEnv name).1 = none) :
    (g.genericApply module name retLoc locations arity).1 =
      .call retLoc (qualifiedName (module.getD (g.searchEnv name).2.self.moduleName) name) arity locations := by
  unfold Scope.genericApply
  generalize g.searchEnv name = found at absent ⊢
  obtain ⟨ref, g'⟩ := found
  cases module with
  | none =>
    obtain rfl : ref = none := absent rfl
    rfl
  | some module => rfl

/-- What a name that is not an operator of two conditional sides compiles to. -/
theorem finishes_apply {module : Option Name} {name : Name} (few : InFrame regs → regs.length < REGISTER_COUNT)
    (calls : CallsMeet number context image frame) (suited : Suited context g₁) (names : Scoped context g₁)
    (env : g₂.self.env = g₁.self.env) (parents : g₂.parents = g₁.parents)
    (moduleName : g₂.self.moduleName = g₁.self.moduleName)
    (applied : g₂.applyOp module name (.register out) (regs.map .register) (UInt8.ofNat regs.length) = .ok (instr, g₃)) :
    Finishes number context image frame out regs instr (applyTo context module name) := by
  rw [Scope.applyOp] at applied
  unfold applyTo
  cases known : (operations context.host).lookup name with
  | some operation =>
    obtain ⟨before, after, split, -⟩ := List.lookup_eq_some_iff.mp known
    have member : (name, operation) ∈ operations context.host := by rw [split]; simp
    obtain ⟨emitter, found, realizes⟩ := operations_realized context.host _ member
    simp only [found, Except.bind_eq_ok, Except.pure_eq_ok, Prod.mk.injEq] at applied
    obtain ⟨_, emitted, rfl, rfl⟩ := applied
    exact finishes_builtin (operations_keepRecords context.host _ member) realizes emitted
  | none =>
    dsimp only
    split
    · next printing =>
      subst printing
      simp only [show builtins.lookup (bytes "print") = some (effect .print) from rfl, Except.bind_eq_ok,
        Except.pure_eq_ok, Prod.mk.injEq] at applied
      obtain ⟨_, emitted, rfl, rfl⟩ := applied
      exact finishes_print emitted
    · split
      · exact fun _ _ _ _ _ _ _ => .nothing
      · next ordinary =>
        simp only [Bool.or_eq_true, not_or, Bool.not_eq_true, Option.isSome_eq_false_iff,
          Option.isNone_iff_eq_none] at ordinary
        rw [ordinary.1] at applied
        have absent (plain : module = none) : (g₂.searchEnv name).1 = none := by
          have unbound : g₁.self.env.lookup name = none := by
            cases found : g₁.self.env.lookup name with
            | none => rfl
            | some ref => simpa [plain, names name ref found] using ordinary.2
          rw [Scope.searchEnv, env, unbound, parents, suited.parents]
          rfl
        have called : instr = .call (.register out) (qualifiedName (module.getD context.moduleName) name)
            (UInt8.ofNat regs.length) (regs.map .register) := by
          have instr_eq := congrArg Prod.fst (Except.ok.inj applied)
          have same := (g₂.searchEnv_extends name).self.moduleName.trans (moduleName.trans suited.moduleName)
          rw [genericApply_call absent, same] at instr_eq
          exact instr_eq.symm
        rw [called]
        exact finishes_call few calls

end Finishes

end Operations

end Pieces

end Owl.Language
