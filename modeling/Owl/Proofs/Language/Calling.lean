import Owl.Proofs.Language.Evaluating

/-! # Calls of installed functions

A function of the program that stands in the loaded code behind its entry of the function table does what its
call means: it returns to the frame of its caller with the value of its body. By induction on the frames that
are left, since the stack of the machine is as deep as the evaluator calls.
-/

namespace Owl.Language

open Owl.Compiler Owl.Runtime Owl.Format StateExcept

variable {World : Type}

/-- A function whose generated code stands at a place of the loaded code. -/
structure Stands (number : Bytes → Option ℕ) (image : Image) (module : Name) (f : FunctionDef) (location : ℕ) : Prop where
  covered : allCovered f.body
  placed : ∃ fn, generateFunction module f = .ok fn ∧ Placed number image.code location fn.code

/-- The functions of the program are in the table, behind the numbers of their names. -/
structure Installed (number : Bytes → Option ℕ) (image : Image) (program : Program World) : Prop where
  arity : ∀ module name n f, program.definition module name n = some f → f.args.length = n
  entry : ∀ module name n f k, program.definition module name n = some f →
    number ((linkName module name n).takeWhile (· ≠ 0)) = some k → image.functions k ≠ NO_FUNCTION ∧
      ∃ record, image.statics (image.functions k) = some record ∧ Stands number image module f record.location

section Parameters

variable {registers : ℕ → Term}

/-- Known values are in the registers of their names. -/
def Bound (registers : ℕ → Term) (locals : Locals) (env : Env) : Prop :=
  ∀ x term, locals.lookup x = some (some term) → ∃ reg, env.lookup x = some (.register reg) ∧ registers reg.toNat = term

private theorem bindArgs_bound {params : List Name} {args : List Term} {locals : Locals} {count total : UInt8}
    {env env' : Env}
    (success : bindArgs params count env = .ok (total, env')) (length : params.length = args.length)
    (passed : ∀ i (inside : i < args.length), registers (count.toNat + 1 + i) = args[i])
    (bound : Bound registers locals env) :
    Bound registers ((params.zip (args.map some)).reverse ++ locals) env' := by
  induction params generalizing args locals count env with
  | nil =>
    cases success
    exact bound
  | cons param params ih =>
    rcases args with _ | ⟨term, args⟩
    · cases length
    · obtain ⟨next, added, rest⟩ := Except.bind_eq_ok.mp success
      have higher : next.toNat = count.toNat + 1 := checkedAdd_ok added
      have first : registers next.toNat = term := by
        rw [higher]
        exact passed 0 (by simp)
      have others (i : ℕ) (inside : i < args.length) : registers (next.toNat + 1 + i) = args[i] := by
        rw [higher, Nat.add_assoc _ 1 i, Nat.add_comm 1 i]
        exact passed (i + 1) (by simpa using inside)
      rw [List.map_cons, List.zip_cons_cons, List.reverse_cons, List.append_assoc]
      apply ih rest (Nat.succ.inj length) others
      intro x value found
      rw [List.singleton_append, List.lookup_cons] at found
      rw [List.lookup_cons]
      split at found
      · cases found
        exact ⟨next, rfl, first⟩
      · exact bound x value found

/-- Parameters are names of the function. -/
private theorem bindArgs_names {params : List Name} {count total : UInt8} {env env' : Env}
    (success : bindArgs params count env = .ok (total, env')) (x : Name) (ref : VarRef)
    (found : env'.lookup x = some ref) : x ∈ params ∨ env.lookup x = some ref := by
  induction params generalizing count env with
  | nil =>
    cases success
    exact .inr found
  | cons param params ih =>
    obtain ⟨next, added, rest⟩ := Except.bind_eq_ok.mp success
    obtain inside | old := ih rest
    · exact .inl (List.mem_cons_of_mem _ inside)
    · rw [List.lookup_cons] at old
      split at old
      · next same => exact .inl (by rw [eq_of_beq same]; exact List.mem_cons_self)
      · exact .inr old

end Parameters

section Names

theorem names_raise (bindings : Bindings) (step : ℕ) : (bindings.raise step).map Prod.fst = bindings.map Prod.fst := by
  rw [Bindings.raise, List.map_map]
  rfl

theorem append_subset_append {first second first' second' : List Name} (left : first ⊆ first') (right : second ⊆ second') :
    first ++ second ⊆ first' ++ second' :=
  List.append_subset.mpr ⟨List.subset_append_of_subset_left _ left, List.subset_append_of_subset_right _ right⟩

theorem argBindings_lets {es : List Expr} (each : ∀ e ∈ es, e.bindings.map Prod.fst ⊆ exprLets e) :
    (argBindings es).map Prod.fst ⊆ letsOf es := by
  induction es with
  | nil => exact List.nil_subset _
  | cons e es ih =>
    rw [List.forall_mem_cons] at each
    rw [argBindings, List.map_append, names_raise, names_raise, letsOf]
    exact append_subset_append each.1 (ih each.2)

theorem exprBindings_lets {es : List Expr} (each : ∀ e ∈ es, e.bindings.map Prod.fst ⊆ exprLets e) :
    (exprBindings es).map Prod.fst ⊆ letsOf es := by
  induction es with
  | nil => exact List.nil_subset _
  | cons e es ih =>
    rw [List.forall_mem_cons] at each
    rw [exprBindings, List.map_append, names_raise, letsOf]
    exact append_subset_append each.1 (ih each.2)

/-- Variables that the generator binds are names that the source binds. -/
private theorem bindings_lets (e : Expr) : e.bindings.map Prod.fst ⊆ exprLets e := by
  induction e with
  | let_ left right ih =>
    rw [Expr.bindings, List.map_append, names_raise, exprLets]
    refine List.append_subset.mpr ⟨List.subset_cons_of_subset _ ih, ?_⟩
    simp
  | if_ condition body elseBody conditionLets thenLets elseLets =>
    rw [Expr.bindings, List.map_append, List.map_append, names_raise, names_raise, exprLets]
    refine List.append_subset.mpr ⟨append_subset_append ?_ (exprBindings_lets elseLets), ?_⟩
    · exact List.subset_append_of_subset_right _ (exprBindings_lets thenLets)
    · exact List.subset_append_of_subset_left _ (List.subset_append_of_subset_left _ conditionLets)
  | apply module name args ih =>
    rw [Expr.bindings.eq_def, exprLets]
    dsimp only
    split
    · rcases args with _ | ⟨left, _ | ⟨right, rest⟩⟩
      · exact List.nil_subset _
      · exact List.nil_subset _
      · rw [List.forall_mem_cons, List.forall_mem_cons] at ih
        dsimp only
        rw [List.map_append, names_raise, letsOf, letsOf]
        exact append_subset_append ih.1 (List.subset_append_of_subset_left _ ih.2.1)
    · exact argBindings_lets ih
  | tuple elems ih => exact argBindings_lets ih
  | list elems ih => exact argBindings_lets ih
  | int | true | false | nil | ident | str | capture | anonFn => exact List.nil_subset _

end Names

section Bodies

variable {number : Bytes → Option ℕ} {context : Context World} {image : Image} {frame : ℕ} {f : FunctionDef}

/-- The scope in which a function is generated is that of its parameters. -/
private theorem suited_new {self : FnGenerator} (created : FnGenerator.new context.moduleName f.name f.args = .ok self) :
    Suited context { self, parents := [] } ∧ Output { self, parents := [] } 0 := by
  obtain ⟨sound, parameters⟩ := FnGenerator.new_sound created
  have moduleName : self.moduleName = context.moduleName := by
    simp only [FnGenerator.new, Except.bind_eq_ok, Prod.exists, Except.pure_eq_ok] at created
    obtain ⟨_, _, -, rfl⟩ := created
    rfl
  refine ⟨⟨rfl, moduleName, fun x ref found => ?_⟩, Nat.zero_le _, fun x found => ?_⟩
  · obtain ⟨k, same, bounded⟩ := sound.bounded x ref found
    exact ⟨k, same, UInt8.le_iff_toNat_le.mp bounded⟩
  · obtain ⟨before, after, split, -⟩ := List.lookup_eq_some_iff.mp found
    have member : (x, VarRef.register 0) ∈ self.env := by
      change self.env = _ at split
      simp [split]
    obtain ⟨k, same, positive, -⟩ := parameters _ member
    cases same
    exact absurd positive (by decide)

/-- The variables of a body are parameters and names that the body binds. -/
private theorem scoped_body {self : FnGenerator} {code : Bytecode} {g' : Scope} {trace : GenTrace} {module : Name}
    (created : FnGenerator.new module f.name f.args = .ok self) (bound : context.bound = boundNames f)
    (run : Generates { self, parents := [] } (.block (.register 0) f.body) code g' trace) : Scoped context g' := by
  intro x ref found
  rw [bound, boundNames, List.mem_append]
  obtain old | ⟨offset, member, -⟩ := run.variables.origin x ref found
  · simp only [FnGenerator.new, Except.bind_eq_ok, Prod.exists, Except.pure_eq_ok] at created
    obtain ⟨_, env, params, rfl⟩ := created
    obtain inside | empty := bindArgs_names params x ref old
    · exact .inl inside
    · simp at empty
  · exact .inr (exprBindings_lets (fun e _ => bindings_lets e) (List.mem_map_of_mem member))

/-- The code of a function takes the machine from its entry to its return. -/
private theorem body_meets {vm : Vm World} {args : List Term} {location : ℕ} (calls : CallsMeet number context image frame)
    (stands : Stands number image context.moduleName f location) (bound : context.bound = boundNames f)
    (executing : Executing image frame vm) (ip : vm.ip = location) (length : f.args.length = args.length)
    (passed : ∀ i (inside : i < args.length), (vm.frames vm.currentFrame).registers (i + 1) = args[i]) :
    Meets (step context.host) vm (evalBlock context none f.body { locals := bindAll f.args args, store := storeOf vm })
      fun result vm' => vm'.code vm'.ip = OP_RETURN ∧ Keeps (fun _ => False) vm vm' ∧
        storeOf vm' = result.2.store ∧ ∀ term, result.1 = some term → register vm' 0 = term := by
  obtain ⟨fn, accepted, placed⟩ := stands.placed
  simp only [generateFunction, generateCode, Except.bind_eq_ok, Prod.exists, Except.pure_eq_ok, Prod.mk.injEq] at accepted
  obtain ⟨self, created, _, _, ⟨code, g', generated, rfl, rfl⟩, rfl⟩ := accepted
  obtain ⟨_, _, run⟩ := generates_block (fun e _ => traced e) generated
  obtain ⟨suited, output⟩ := suited_new created
  rw [placed_append, ← ip] at placed
  have represents : Represents { self, parents := [] } { locals := bindAll f.args args, store := storeOf vm } vm := by
    refine ⟨rfl, fun x term found => ?_⟩
    simp only [FnGenerator.new, Except.bind_eq_ok, Prod.exists, Except.pure_eq_ok] at created
    obtain ⟨_, env, params, rfl⟩ := created
    have start : Bound (vm.frames vm.currentFrame).registers [] [] := fun x term found => by cases found
    have bound := bindArgs_bound params length (fun i inside => by
      rw [show (0 : UInt8).toNat + 1 + i = i + 1 from Nat.add_comm _ i]
      exact passed i inside) start
    rw [List.append_nil] at bound
    exact bound x term found
  apply (evaluates_block (fun e _ => allEvaluate calls e) stands.covered generated suited output
    (scoped_body created bound run) vm none _ ⟨executing, represents, by simp⟩ placed.1).mono
  rintro result vm' - ⟨behind, evaluated⟩
  refine ⟨?_, evaluated.keeps.mono fun _ impossible => impossible.elim, evaluated.represents.store, evaluated.content⟩
  obtain ⟨returns, -⟩ := placed.2
  rw [(executing.keeps evaluated.keeps).code, ← behind] at returns
  obtain ⟨id, -, holds⟩ := returns.holds
  exact holds.head

end Bodies

section Calls

variable {number : Bytes → Option ℕ} {image : Image} {program : Program World}

/-- The byte of a call is the entry of its function. -/
theorem Installed.called {module name : Name} {out id : UInt8} {regs : Bytes} {f : FunctionDef}
    (installed : Installed number image program) (defined : program.definition module name regs.length = some f)
    (named : (Layout.call out (linkName module name regs.length) regs).cut.Named number id) :
    id.toNat < MAX_FUNCTIONS ∧ image.functions id.toNat ≠ NO_FUNCTION ∧
      ∃ record, image.statics (image.functions id.toNat) = some record ∧ Stands number image module f record.location := by
  obtain ⟨k, known, rfl, inTable⟩ := named
  obtain ⟨filled, record, found, stands⟩ := installed.entry module name regs.length f k defined known
  rw [ofNat_toNat_of_lt (by rw [MAX_FUNCTIONS] at inTable; omega)]
  exact ⟨inTable, filled, record, found, stands⟩

/-- Back in the frame of the caller, behind the call. -/
theorem Called.returned {vm vm₁ vm₂ vm₃ : Vm World} {out : UInt8} {width location : ℕ} {args : List Term}
    (called : Called vm vm₁ out width location args) (keeps : Keeps (fun _ => False) vm₁ vm₂)
    (returned : Returned vm₂ vm₃) :
    vm₃.ip = vm.ip + width ∧ Keeps (· ≠ out) vm vm₃ ∧ register vm₃ out = register vm₂ 0 := by
  have frame : vm₃.currentFrame = vm.currentFrame := by
    have first := returned.currentFrame
    rw [keeps.currentFrame, called.currentFrame] at first
    exact Nat.succ.inj first
  have lower (i : ℕ) (low : i ≤ vm.currentFrame) : vm₂.frames i = vm.frames i :=
    (keeps.below i (by rw [called.currentFrame]; omega)).trans (called.below i low)
  have callee : vm₂.currentFrame = vm.currentFrame + 1 := keeps.currentFrame.trans called.currentFrame
  have address := keeps.retAddress
  have target := keeps.retRegister
  rw [called.currentFrame] at address target
  have caller := returned.caller
  rw [frame, callee, target, called.retRegister, lower _ (Nat.le_refl _)] at caller
  refine ⟨?_, ⟨?_, frame, fun i low => ?_, ?_, ?_, fun reg other => ?_⟩, ?_⟩
  · rw [returned.ip, callee, address, called.retAddress]
  · exact returned.image.trans (keeps.image.trans called.image)
  · exact (returned.below i (by rwa [frame])).trans (lower i low.le)
  · rw [caller, Frame.setRegister]
  · rw [caller, Frame.setRegister]
  · simp only [register, frame, caller, Frame.setRegister]
    exact Function.update_of_ne (fun same => other (UInt8.toNat_inj.mp same)) ..
  · simp only [register, frame, caller, Frame.setRegister, Function.update_self, callee]
    rfl

/-- Functions that are installed return what they mean, whatever frames are left. -/
theorem calls_meet (installed : Installed number image program) : ∀ (depth frame : ℕ) (context : Context World),
    frame + depth + 1 = STACK_DEPTH → context.host = program.host → context.call = callFunction program depth →
    CallsMeet number context image frame := by
  intro depth
  induction depth with
  | zero =>
    intro frame context room host call vm module name out id regs executing inFrame few holds named
    rw [call, host, callFunction, List.length_map]
    split
    · exact .nothing
    · next f defined =>
      split
      · exact .nothing
      · next idle =>
        obtain ⟨inTable, filled, -⟩ := installed.called defined named
        rw [← executing.image] at filled
        have last : STACK_DEPTH ≤ vm.currentFrame + 1 := by
          rw [executing.frame]
          omega
        exact .stop (call_overflows holds (Bool.eq_false_iff.mpr idle) inTable filled last)
  | succ depth ih =>
    intro frame context room host call vm module name out id regs executing inFrame few holds named
    rw [call, host, callFunction, List.length_map]
    split
    · exact .nothing
    · next f defined =>
      split
      · exact .nothing
      · next idle =>
        obtain ⟨inTable, filled, record, found, stands⟩ := installed.called defined named
        obtain ⟨small, others⟩ := List.forall_mem_cons.mp inFrame
        rw [← executing.image] at filled found
        obtain ⟨vm₁, stepped, entered⟩ := @call_enters _ program.host _ _ _ _ _ others few holds
          (Bool.eq_false_iff.mpr idle) inTable filled found (by rw [executing.frame]; omega)
        let callee : Context World :=
          { host := program.host, call := callFunction program depth, moduleName := module, bound := boundNames f }
        have executing₁ : Executing image (frame + 1) vm₁ :=
          ⟨entered.image.trans executing.image, by rw [entered.currentFrame, executing.frame]⟩
        have length : f.args.length = (regs.map (register vm)).length := by
          rw [List.length_map]
          exact installed.arity module name regs.length f defined
        have body := body_meets (ih (frame + 1) callee (by omega) rfl rfl) stands rfl executing₁ entered.ip length
          (fun i inside => by rw [entered.currentFrame]; exact entered.args i inside)
        rw [entered.store] at body
        apply Meets.step stepped
        apply body.bind
        rintro ⟨content, state⟩ vm₂ - ⟨returns, keeps, store, value⟩
        have called : 0 < vm₂.currentFrame := by
          rw [keeps.currentFrame, entered.currentFrame]
          exact Nat.succ_pos _
        have target : (vm₂.frames vm₂.currentFrame).retRegister < REGISTER_COUNT := by
          rw [keeps.currentFrame, keeps.retRegister, entered.currentFrame, entered.retRegister]
          exact small
        obtain ⟨vm₃, left, returned⟩ := @return_step _ program.host _ returns called target
        obtain ⟨ip, kept, same⟩ := entered.returned keeps returned
        exact .step left (.result ⟨ip, kept, returned.store.trans store, fun term known => same.trans (value term known)⟩)

end Calls

end Owl.Language
