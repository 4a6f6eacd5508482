import Owl.Proofs.Compiler.Variables

/-! # Which variables keep their registers

A variable stays in its register as long as the counter stays above it. Only the pops that rebuild an
operand list lower the counter, by as many registers as there are arguments; a variable bound in an
argument survives them exactly when the arguments keep at least as many registers as were pushed up to
the variable. With this condition on every argument list, all variables of a function survive.
-/

namespace Owl.Compiler

/-- The variables of a generator are in pairwise distinct registers, none above its counter. -/
structure FnGenerator.Sound (generator : FnGenerator) : Prop where
  distinct : ∀ x y reg, generator.env.lookup x = some reg → generator.env.lookup y = some reg → x = y
  bounded : ∀ x reg, generator.env.lookup x = some reg →
    ∃ k : UInt8, reg = .register k ∧ k ≤ generator.varCount

/-- A later event does not write the register that an earlier one binds. -/
def GenEvent.Keeps : GenEvent → GenEvent → Prop
  | .bind _ reg, later => later.writes ≠ some reg
  | _, _ => True

instance (earlier later : GenEvent) : Decidable (earlier.Keeps later) := by
  cases earlier <;> unfold GenEvent.Keeps <;> infer_instance

/-- The environment is sound at every point of a function's generation, and no instruction generated
after a variable is bound writes its register. -/
structure VariablesSurvive (events : List GenEvent) : Prop where
  sound : ∀ self, .state self ∈ events → self.Sound
  kept : events.Pairwise GenEvent.Keeps

/-- Variables survive in a function and in all closures of its body. -/
def NamedVariablesSurvive (moduleName : Name) (f : FunctionDef) : Prop :=
  ∃ functions, traceFunction moduleName f = .ok functions ∧
    ∀ events ∈ functions, VariablesSurvive events

/-- No variable bound in an argument list is above the registers that the list keeps. -/
def ArgumentsAnchored (es : List Expr) : Prop := ∀ binding ∈ argBindings es, binding.2 ≤ leaks es

instance (es : List Expr) : Decidable (ArgumentsAnchored es) := by
  unfold ArgumentsAnchored; infer_instance

mutual

/-- The variables bound in the arguments of every operation, call, tuple and list are anchored. -/
def Expr.Anchored : Expr → Prop
  | .let _ right => right.Anchored
  | .if condition body elseBody => condition.Anchored ∧ AllAnchored body ∧ AllAnchored elseBody
  | .apply _ name args =>
      if IsShortCircuit name then
        match args with
        | left :: right :: _ => left.Anchored ∧ right.Anchored
        | _ => True
      else AllAnchored args ∧ ArgumentsAnchored args
  | .tuple elems => AllAnchored elems ∧ ArgumentsAnchored elems
  | .list elems => AllAnchored elems ∧ ArgumentsAnchored elems
  | .anonFn _ body => AllAnchored body
  | _ => True

def AllAnchored : List Expr → Prop
  | [] => True
  | e :: es => e.Anchored ∧ AllAnchored es

end

def Piece.Anchored : Piece → Prop
  | expr _ e => e.Anchored
  | args es => AllAnchored es
  | block _ es => AllAnchored es
  | exprs _ es => AllAnchored es

private theorem leaf_anchored {g g' : Scope} {out : VarRef} {e : Expr} {instr : Instruction}
    (single : leafInstr g out e = some (instr, g')) : e.Anchored := by
  cases e <;> trivial

private theorem operation_anchored {e : Expr} {es : List Expr} (operands : e.operandExprs = some es) :
    e.Anchored ↔ AllAnchored es ∧ ArgumentsAnchored es := by
  cases e <;> simp only [Expr.operandExprs, reduceCtorEq] at operands
  case apply module name args =>
    split at operands
    · contradiction
    · next notShort =>
      cases operands
      rw [Expr.Anchored.eq_def]
      simp only [notShort, if_false]
  all_goals cases operands; exact Iff.rfl

namespace VariablesSurvive

variable {events first second : List GenEvent}

theorem append (left : VariablesSurvive first) (right : VariablesSurvive second)
    (apart : ∀ x reg, .bind x reg ∈ first → ∀ event ∈ second, event.writes ≠ some reg) :
    VariablesSurvive (first ++ second) where
  sound self member := (List.mem_append.mp member).elim (left.sound self) (right.sound self)
  kept := by
    refine List.pairwise_append.mpr ⟨left.kept, right.kept, fun earlier member later after => ?_⟩
    cases earlier with
    | bind x reg => exact apart x reg member later after
    | state self => trivial
    | emit instr outputs => trivial

/-- Events that bind nothing keep whatever stands before them. -/
theorem of_binds_none (sound : ∀ self, .state self ∈ events → self.Sound)
    (none : ∀ x reg, GenEvent.bind x reg ∉ events) : VariablesSurvive events where
  sound := sound
  kept := List.pairwise_of_forall_mem_list fun earlier member later _ => by
    cases earlier with
    | bind x reg => exact absurd member (none x reg)
    | state self => trivial
    | emit instr outputs => trivial

theorem states {selves : List FnGenerator} (sound : ∀ self ∈ selves, self.Sound) :
    VariablesSurvive (selves.map .state) :=
  of_binds_none (by simpa using sound) (by simp)

theorem emits (code : Bytecode) : VariablesSurvive (Compiler.emits code).own :=
  of_binds_none (by simp [Compiler.emits]) (by simp [Compiler.emits])

end VariablesSurvive

namespace FnGenerator.Sound

variable {self : FnGenerator}

/-- Registers above the counter are not in a sound environment. -/
theorem unused (sound : self.Sound) {k : UInt8} (above : self.varCount.toNat < k.toNat) (x : Name) :
    self.env.lookup x ≠ some (.register k) := by
  intro found
  obtain ⟨k', same, bounded⟩ := sound.bounded x _ found
  cases same
  exact absurd (UInt8.le_iff_toNat_le.mp bounded) (by omega)

theorem of_env {self' : FnGenerator} (sound : self.Sound) (env : self'.env = self.env)
    (bounded : ∀ x k, self.env.lookup x = some (.register k) → k ≤ self'.varCount) :
    self'.Sound where
  distinct x y reg left right := sound.distinct x y reg (env ▸ left) (env ▸ right)
  bounded x reg found := by
    rw [env] at found
    obtain ⟨k, rfl, -⟩ := sound.bounded x reg found
    exact ⟨k, rfl, bounded x k found⟩

theorem insert (sound : self.Sound) {left : Name} {k : UInt8} (allocated : k ≤ self.varCount)
    (unused : ∀ x, self.env.lookup x ≠ some (.register k)) :
    FnGenerator.Sound { self with env := (left, .register k) :: self.env } where
  distinct x y reg first second := by
    simp only [List.lookup_cons] at first second
    have older := sound.distinct x y reg
    grind
  bounded x reg found := by
    simp only [List.lookup_cons] at found
    split at found
    · cases found
      exact ⟨k, rfl, allocated⟩
    · exact sound.bounded x reg found

end FnGenerator.Sound

theorem Scope.push_sound {g g' : Scope} {reg : VarRef} (allocated : g.push = .ok (reg, g'))
    (sound : g.self.Sound) : g'.self.Sound := by
  obtain ⟨varCount, next, rfl, rfl⟩ := Scope.push_ok allocated
  refine sound.of_env rfl fun x k found => ?_
  obtain ⟨_, same, bounded⟩ := sound.bounded x _ found
  cases same
  rw [UInt8.le_iff_toNat_le] at bounded ⊢
  exact Nat.le_trans bounded (by dsimp only; omega)

/-- Parameters take the registers from one up to the counter. -/
def Parameter (total : UInt8) (entry : Name × VarRef) : Prop :=
  ∃ k : UInt8, entry.2 = .register k ∧ 0 < k.toNat ∧ k ≤ total

private theorem bindArgs_sound {params : List Name} (generator : FnGenerator) {varCount total : UInt8}
    {env result : Env} (success : bindArgs params varCount env = .ok (total, result))
    (sound : FnGenerator.Sound { generator with varCount, env })
    (parameters : ∀ entry ∈ env, Parameter varCount entry) :
    FnGenerator.Sound { generator with varCount := total, env := result } ∧
      ∀ entry ∈ result, Parameter total entry := by
  induction params generalizing varCount env with
  | nil => cases success; exact ⟨sound, parameters⟩
  | cons param params ih =>
    obtain ⟨next, added, rest⟩ := Except.bind_eq_ok.mp success
    have higher : next.toNat = varCount.toNat + 1 := checkedAdd_ok added
    have raise {k : UInt8} (bounded : k ≤ varCount) : k ≤ next := by
      rw [UInt8.le_iff_toNat_le] at bounded ⊢
      omega
    have raised : FnGenerator.Sound { generator with varCount := next, env } :=
      sound.of_env rfl fun x k found => by
        obtain ⟨_, same, bounded⟩ := sound.bounded x _ found
        cases same
        exact raise bounded
    refine ih rest (raised.insert (UInt8.le_refl _) (sound.unused (by dsimp only; omega))) ?_
    intro entry member
    rcases List.mem_cons.mp member with rfl | member
    · exact ⟨next, rfl, by omega, UInt8.le_refl _⟩
    · obtain ⟨k, same, positive, bounded⟩ := parameters entry member
      exact ⟨k, same, positive, raise bounded⟩

theorem FnGenerator.new_sound {self : FnGenerator} {moduleName functionName : Name}
    {params : List Name} (created : FnGenerator.new moduleName functionName params = .ok self) :
    self.Sound ∧ ∀ entry ∈ self.env, Parameter self.varCount entry := by
  simp only [FnGenerator.new, Except.bind_eq_ok, Prod.exists, Except.pure_eq_ok] at created
  obtain ⟨total, env, bound, rfl⟩ := created
  have empty : FnGenerator.Sound ⟨0, moduleName, functionName, [], []⟩ :=
    ⟨fun x y reg found => by simp at found, fun x reg found => by simp at found⟩
  exact bindArgs_sound ⟨0, moduleName, functionName, [], []⟩ bound empty (by simp)

/-- A function's parameters survive a body that writes register zero or registers of its own. -/
theorem VariablesSurvive.functionEvents {self : FnGenerator} {body : List GenEvent}
    (sound : self.Sound) (parameters : ∀ entry ∈ self.env, Parameter self.varCount entry)
    (survive : VariablesSurvive body) (writes : ∀ event ∈ body, ∀ reg, event.writes = some reg →
      some (.register 0) = some reg ∨ Above self.varCount.toNat reg) :
    VariablesSurvive (functionEvents self body) := by
  have start : VariablesSurvive (.state self :: self.env.map fun entry => .bind entry.1 entry.2) := by
    refine ⟨by simpa using sound, List.pairwise_cons.mpr ⟨fun _ _ => trivial, ?_⟩⟩
    refine List.pairwise_of_forall_mem_list fun earlier _ later member => ?_
    obtain ⟨entry, -, rfl⟩ := List.mem_map.mp member
    cases earlier <;> simp [GenEvent.Keeps, GenEvent.writes]
  have last : VariablesSurvive [.emit .return []] := .of_binds_none (by simp) (by simp)
  refine (start.append survive ?_).append last ?_
  · rintro x reg member event present written
    obtain ⟨entry, parameter, same⟩ : ∃ entry ∈ self.env, entry.2 = reg := by
      simp only [List.mem_cons, reduceCtorEq, List.mem_map, GenEvent.bind.injEq, false_or] at member
      obtain ⟨entry, parameter, -, same⟩ := member
      exact ⟨entry, parameter, same⟩
    obtain ⟨k, isRegister, positive, bounded⟩ := parameters entry parameter
    rw [UInt8.le_iff_toNat_le] at bounded
    rcases writes event present reg written with zero | ⟨k', rfl, above⟩
    · rw [← same, isRegister] at zero
      cases zero
      exact absurd positive (by decide)
    · cases isRegister.symm.trans same
      omega
  · rintro x reg - event present written
    cases List.mem_singleton.mp present
    cases written

/-- A register that was allocated when the counter was at `base`. -/
def Allocated (base : ℕ) (reg : VarRef) : Prop := ∃ k : UInt8, reg = .register k ∧ k.toNat ≤ base

theorem Allocated.mono {base base' : ℕ} {reg : VarRef} (allocated : Allocated base reg)
    (higher : base ≤ base') : Allocated base' reg := by
  obtain ⟨k, rfl, bounded⟩ := allocated
  exact ⟨k, rfl, by omega⟩

/-- What an anchored piece guarantees: its variables end at or below the counter, and they survive. -/
structure Survives (g : Scope) (bindings : Bindings) (g' : Scope) (trace : GenTrace) : Prop where
  below : ∀ x offset, (x, offset) ∈ bindings →
    g.self.varCount.toNat + offset ≤ g'.self.varCount.toNat
  sound : g'.self.Sound
  own : VariablesSurvive trace.own
  closures : ∀ events ∈ trace.closures, VariablesSurvive events

namespace Survives

variable {g g₁ g₂ : Scope} {out? out₂? : Option VarRef} {first second : Bindings}
  {clean clean₁ clean₂ : Prop} {trace trace₁ trace₂ : GenTrace}

/-- Variables below a counter are not written from above it, nor into registers older than them. -/
theorem apart {top : ℕ} {events later : List GenEvent}
    (effects : Variables g out? first clean g₁ events)
    (below : ∀ x offset, (x, offset) ∈ first → g.self.varCount.toNat + offset ≤ top)
    (writes : ∀ event ∈ later, ∀ reg, event.writes = some reg →
      Allocated g.self.varCount.toNat reg ∨ Above top reg) :
    ∀ x reg, .bind x reg ∈ events → ∀ event ∈ later, event.writes ≠ some reg := by
  intro x reg bound event present written
  obtain ⟨offset, member, k, rfl, position⟩ := effects.binds x reg bound
  have positive := effects.positive x offset member
  have bounded := below x offset member
  rcases writes event present _ written with ⟨_, same, older⟩ | ⟨_, same, above⟩
  · cases same
    omega
  · cases same
    omega

theorem append {step : ℕ} (left : Survives g first g₁ trace₁)
    (effects : Variables g out? first clean₁ g₁ trace₁.own)
    (raised : g₁.self.varCount.toNat = g.self.varCount.toNat + step)
    (right : Survives g₁ second g₂ trace₂)
    (later : Variables g₁ out₂? second clean₂ g₂ trace₂.own)
    (grows : g₁.self.varCount.toNat ≤ g₂.self.varCount.toNat)
    (output : ∀ reg, out₂? = some reg → Allocated g.self.varCount.toNat reg) :
    Survives g (first ++ second.raise step) g₂ (trace₁ ++ trace₂) where
  below x offset member := by
    rcases List.mem_append.mp member with member | member
    · exact (left.below x offset member).trans grows
    · obtain ⟨lower, inner, rfl⟩ := Bindings.mem_raise.mp member
      have := right.below x lower inner
      omega
  sound := right.sound
  own := left.own.append right.own <| apart effects left.below fun event present reg written =>
    (later.writes event present reg written).imp (output reg) id
  closures events member := (List.mem_append.mp member).elim (left.closures events)
    (right.closures events)

/-- Events that bind nothing may follow, if they leave the counter above all variables. -/
theorem followed {events : List GenEvent} (left : Survives g first g₁ trace)
    (effects : Variables g out? first clean g₁ trace.own)
    (below : ∀ x offset, (x, offset) ∈ first →
      g.self.varCount.toNat + offset ≤ g₂.self.varCount.toNat)
    (sound : g₂.self.Sound) (states : ∀ self, .state self ∈ events → self.Sound)
    (binds : ∀ x reg, GenEvent.bind x reg ∉ events)
    (writes : ∀ event ∈ events, ∀ reg, event.writes = some reg →
      Allocated g.self.varCount.toNat reg) : Survives g first g₂ (trace ++ .ofEvents events) where
  below := below
  sound := sound
  own := left.own.append (.of_binds_none states binds) <| apart effects left.below
    fun event present reg written => .inl (writes event present reg written)
  closures := by simpa using left.closures

/-- The jumps that join two branches. -/
theorem jumps {reg : VarRef} {thenBranch elseBranch jumps : Bytecode}
    (left : Survives g first g₁ trace) (effects : Variables g out? first clean g₁ trace.own)
    (tested : branchInstrs reg thenBranch elseBranch = .ok jumps) :
    Survives g first g₁ (trace ++ emits jumps) := by
  refine left.followed effects left.below left.sound (by simp) (by simp) ?_
  intro event present reg written
  obtain ⟨instr, member, rfl⟩ := List.mem_map.mp present
  simp [GenEvent.writes, branchInstrs_writes tested instr member] at written

theorem pushed {reg : VarRef} (allocated : g.push = .ok (reg, g₁)) (sound : g.self.Sound)
    (value : Survives g₁ first g₂ trace) :
    Survives g (first.raise 1) g₂ (.ofEvents [.state g₁.self] ++ trace) where
  below x offset member := by
    obtain ⟨lower, inner, rfl⟩ := Bindings.mem_raise.mp member
    obtain ⟨varCount, next, -, rfl⟩ := Scope.push_ok allocated
    have := value.below x lower inner
    dsimp only at this
    omega
  sound := value.sound
  own := by
    have state : VariablesSurvive [.state g₁.self] :=
      .of_binds_none (by simpa using Scope.push_sound allocated sound) (by simp)
    exact state.append value.own (by simp)
  closures := by simpa using value.closures

theorem insert {left : Name} {var : VarRef} (value : Survives g first g₁ trace)
    (sound : (g₁.insertEnv left var).self.Sound)
    (below : g.self.varCount.toNat + 1 ≤ g₁.self.varCount.toNat) :
    Survives g (first ++ [(left, 1)]) (g₁.insertEnv left var)
      (trace ++ .ofEvents [.state (g₁.insertEnv left var).self, .bind left var]) where
  below x offset member := by
    rcases List.mem_append.mp member with member | member
    · exact value.below x offset member
    · obtain ⟨rfl, rfl⟩ := Prod.mk.inj (List.mem_singleton.mp member)
      exact below
  sound := sound
  own := by
    have bound : VariablesSurvive [.state (g₁.insertEnv left var).self, .bind left var] :=
      ⟨by simpa using sound, by simp [GenEvent.Keeps]⟩
    exact value.own.append bound (by simp [GenEvent.writes])
  closures := by simpa using value.closures

end Survives

private theorem popStates_spec {n : ℕ} {g : Scope} {states : List FnGenerator}
    (popped : g.popStates n = .ok states) :
    (∀ self ∈ states, self.env = g.self.env ∧ g.self.varCount.toNat ≤ self.varCount.toNat + n) ∧
      (0 < n → ∃ self ∈ states, self.env = g.self.env ∧
        self.varCount.toNat + n = g.self.varCount.toNat) := by
  induction n generalizing g states with
  | zero => cases popped; simp
  | succ n ih =>
    simp only [Scope.popStates, Except.bind_eq_ok, Prod.exists, Except.pure_eq_ok] at popped
    obtain ⟨reg, g₁, one, rest, later, rfl⟩ := popped
    obtain ⟨varCount, lower, -, rfl⟩ := Scope.pop_ok one
    obtain ⟨all, last⟩ := ih later
    dsimp only at all last
    refine ⟨?_, fun _ => ?_⟩
    · refine List.forall_mem_cons.mpr ⟨⟨rfl, by dsimp only; omega⟩, fun self member => ?_⟩
      exact ⟨(all self member).1, by have := (all self member).2; omega⟩
    · rcases Nat.eq_zero_or_pos n with rfl | more
      · exact ⟨_, List.mem_cons_self, rfl, by dsimp only; omega⟩
      · obtain ⟨self, member, env, count⟩ := last more
        exact ⟨self, List.mem_cons_of_mem _ member, env, by omega⟩

/-- Every variable of a piece that starts in a sound scope is at or below the counter plus its
offset. -/
theorem Variables.top {g g' : Scope} {out? : Option VarRef} {bindings : Bindings} {clean : Prop}
    {events : List GenEvent} (effects : Variables g out? bindings clean g' events)
    (sound : g.self.Sound) {top : ℕ} (base : g.self.varCount.toNat ≤ top)
    (below : ∀ x offset, (x, offset) ∈ bindings → g.self.varCount.toNat + offset ≤ top) :
    ∀ x k, g'.self.env.lookup x = some (.register k) → k.toNat ≤ top := by
  intro x k found
  rcases effects.origin x _ found with old | ⟨offset, member, k', same, position⟩
  · obtain ⟨k', same, bounded⟩ := sound.bounded x _ old
    cases same
    exact (UInt8.le_iff_toNat_le.mp bounded).trans base
  · cases same
    exact position ▸ below x offset member

/-- Variables survive a piece whose argument lists are anchored. -/
theorem Generates.survives {g g' : Scope} {piece : Piece} {code : Bytecode} {trace : GenTrace}
    (run : Generates g piece code g' trace) (anchored : piece.Anchored) (sound : g.self.Sound)
    (output : ∀ reg, piece.out? = some reg → Allocated g.self.varCount.toNat reg) :
    Survives g piece.bindings g' trace := by
  induction run with
  | @leaf g g' out e instr single =>
    have extended := leafInstr_extends single
    have none := leaf_bindings single
    exact {
      below := by simp [Piece.bindings, none]
      sound := sound.of_env extended.self.env fun x k found => by
        obtain ⟨_, same, bounded⟩ := sound.bounded x _ found
        cases same
        exact extended.self.varCount ▸ bounded
      own := .emits [instr]
      closures := by simp [emits] }
  | @shortCircuit g g₁ g₂ out module name left right rest leftCode rightCode thenBranch elseBranch
      code jumps leftTrace rightTrace named first second sides joined tested ih₁ ih₂ =>
    simp only [Piece.Anchored] at anchored
    rw [Expr.Anchored.eq_def] at anchored
    simp only [named, if_true] at anchored
    have bindings : (Expr.apply module name (left :: right :: rest)).bindings =
        left.bindings ++ right.bindings.raise left.leak := by
      rw [Expr.bindings.eq_def]
      simp only [named, if_true]
    have raised := first.frame.1
    have leftSurvives := ih₁ anchored.1 sound output
    have rightSurvives := ih₂ anchored.2 leftSurvives.sound fun reg same =>
      (output reg same).mono (by omega)
    have both := leftSurvives.append first.variables raised rightSurvives second.variables
      (by have := second.frame.1; omega) output
    have effects := first.variables.append raised second.variables
      (fun _ same => .inl same) fun rebound : False => rebound.elim
    simp only [Piece.bindings, bindings]
    exact both.jumps effects tested
  | @operation g g₁ g₂ g₃ out e es res argsTrace locations outputs states instr operands evaluated
      generated popped snapshots placed finished ih =>
    obtain ⟨args, inArguments⟩ := (operation_anchored operands).mp anchored
    have arguments := ih args sound (by simp [Piece.out?])
    obtain ⟨varCount, total, rfl⟩ := Scope.argLocations_ok popped
    have count := generated.frame.1
    simp only [Piece.leak] at count
    have extended := finishOperation_extends finished
    have final : g₃.self.varCount.toNat = g.self.varCount.toNat + leaks es := by
      rw [extended.self.varCount]
      dsimp only
      omega
    have below : ∀ x offset, (x, offset) ∈ argBindings es →
        g.self.varCount.toNat + offset ≤ g₃.self.varCount.toNat := fun x offset member => by
      have := inArguments (x, offset) member
      omega
    have top := generated.variables.top sound (by omega) below
    have soundBelow {self : FnGenerator} (env : self.env = g₁.self.env)
        (higher : g₃.self.varCount.toNat ≤ self.varCount.toNat) : self.Sound :=
      arguments.sound.of_env env fun x k found =>
        UInt8.le_iff_toNat_le.mpr ((top x k found).trans higher)
    simp only [Piece.bindings, (operation_bindings operands).1]
    refine arguments.followed generated.variables below (soundBelow extended.self.env (Nat.le_refl _))
      ?_ (by simp) ?_
    · intro self member
      obtain ⟨env, higher⟩ := (popStates_spec snapshots).1 self (by simpa using member)
      exact soundBelow env (by omega)
    · intro event member reg written
      rcases List.mem_append.mp member with member | member
      · obtain ⟨self, -, rfl⟩ := List.mem_map.mp member
        cases written
      · cases List.mem_singleton.mp member
        rw [(finishOperation_finished finished).writes reg written]
        exact output out rfl
  | @branch g g₁ g₂ g₃ g₄ out conditionOut condition body elseBody thenBranch elseBranch res code
      jumps thenTrace elseTrace conditionTrace first second allocated third joined tested
      ih₁ ih₂ ih₃ =>
    obtain ⟨inCondition, inBody, inElse⟩ := anchored
    have thenCount := first.frame.1
    have elseCount := second.frame.1
    have conditionCount := third.frame.1
    obtain ⟨varCount, next, same, pushed⟩ := Scope.push_ok allocated
    have nextCount : g₃.self.varCount.toNat = g₂.self.varCount.toNat + 1 := by rw [pushed]; exact next
    have thenSurvives := ih₁ inBody sound output
    have elseSurvives := ih₂ inElse thenSurvives.sound fun reg same =>
      (output reg same).mono (by omega)
    have blocks := thenSurvives.append first.variables thenCount elseSurvives second.variables
      (by omega) output
    have effects := first.variables.append thenCount second.variables
      (fun _ same => .inl same) fun rebound : False => rebound.elim
    have conditionSurvives := (ih₃ inCondition (Scope.push_sound allocated elseSurvives.sound)
      (by rintro reg ⟨⟩; exact ⟨varCount, same, by omega⟩)).pushed allocated elseSurvives.sound
    have conditionEffects : Variables g₂ none (condition.bindings.raise 1) _ g₄
        (.state g₃.self :: conditionTrace.own) := third.variables.pushed (same ▸ allocated)
    have raised : g₂.self.varCount.toNat =
        g.self.varCount.toNat + (leaks body + leaks elseBody) := by
      simp only [Piece.leak] at thenCount elseCount
      omega
    have all := blocks.append effects raised conditionSurvives conditionEffects (by omega) (by simp)
    have allEffects : Variables g (some out) _ False g₄
        (thenTrace ++ elseTrace ++ (.ofEvents [.state g₃.self] ++ conditionTrace)).own :=
      effects.append raised conditionEffects (by simp) False.elim
    have joined := all.jumps allEffects tested
    rw [Bindings.raise_raise] at joined
    simpa only [GenTrace.append_assoc, Piece.bindings, Expr.bindings, Piece.leak] using joined
  | @binding g g₁ g₂ out var left right code rightTrace fresh allocated generated ih =>
    obtain ⟨varCount, next, same, pushed⟩ := Scope.push_ok allocated
    have nextCount : g₁.self.varCount = varCount := by rw [pushed]
    have count : g₂.self.varCount.toNat = varCount.toNat + right.leak := nextCount ▸ generated.frame.1
    have started := Scope.push_sound allocated sound
    have value := ih anchored started (by
      rintro reg ⟨⟩
      exact ⟨varCount, same, nextCount ▸ Nat.le_refl _⟩)
    have unused : ∀ x, g₂.self.env.lookup x ≠ some (.register varCount) := by
      intro x found
      rcases generated.variables.origin x _ found with old | ⟨offset, member, k, equal, position⟩
      · rw [pushed] at old
        exact sound.unused (by omega) x old
      · have := generated.variables.positive x offset member
        cases equal
        rw [nextCount] at position
        omega
    have inserted : (g₂.insertEnv left var).self.Sound := by
      rw [same]
      exact value.sound.insert (UInt8.le_iff_toNat_le.mpr (by omega)) unused
    exact (value.pushed allocated sound).insert inserted (by omega)
  | @closure g child child' out params body code bodyTrace size jump entered generated sized jumped
      ih =>
    obtain ⟨parents, created⟩ := Scope.child_parents entered
    have extended := Scope.leave_extends (parents ▸ generated.frame.2.2.2)
    obtain ⟨started, parameters⟩ := FnGenerator.new_sound created
    have inner := ih anchored started (by rintro reg ⟨⟩; exact ⟨0, rfl, Nat.zero_le _⟩)
    exact {
      below := by simp [Piece.bindings, Expr.bindings]
      sound := sound.of_env extended.self.env fun x k found => by
        obtain ⟨_, same, bounded⟩ := sound.bounded x _ found
        cases same
        exact extended.self.varCount ▸ bounded
      own := by simpa using VariablesSurvive.emits [_]
      closures := by
        simp only [GenTrace.append_closures, emits, GenTrace.ofEvents_closures, List.nil_append,
          List.forall_mem_cons]
        exact ⟨inner.own.functionEvents started parameters generated.variables.writes,
          inner.closures⟩ }
  | argsNil g => exact ⟨by simp [Piece.bindings, argBindings], sound, ⟨by simp, by simp⟩, by simp⟩
  | @argsCons g g₁ g₂ g₃ argOut e es code rest argTrace restTrace allocated first second ih₁ ih₂ =>
    obtain ⟨varCount, next, same, pushed⟩ := Scope.push_ok allocated
    have head := first.frame.1
    have tail := second.frame.1
    have raised : g₂.self.varCount.toNat = g.self.varCount.toNat + (1 + e.leak) := by
      rw [pushed] at head
      simp only [Piece.leak] at head
      omega
    have value := (ih₁ anchored.1 (Scope.push_sound allocated sound) (by
      rintro reg ⟨⟩
      exact ⟨varCount, same, by rw [pushed]⟩)).pushed allocated sound
    have effects : Variables g none (e.bindings.raise 1) _ g₂ (.state g₁.self :: argTrace.own) :=
      first.variables.pushed allocated
    exact value.append effects raised (ih₂ anchored.2 value.sound (by simp [Piece.out?]))
      second.variables (by omega) (by simp [Piece.out?])
  | blockNil g out =>
    exact ⟨by simp [Piece.bindings, exprBindings], sound, .emits [.storeNil out], by simp [emits]⟩
  | exprsNil g out =>
    exact ⟨by simp [Piece.bindings, exprBindings], sound, ⟨by simp, by simp⟩, by simp⟩
  | blockCons first second ih₁ ih₂ | exprsCons first second ih₁ ih₂ =>
    have head := first.frame.1
    have tail := second.frame.1
    have value := ih₁ anchored.1 sound output
    exact value.append first.variables head
      (ih₂ anchored.2 value.sound fun reg same => (output reg same).mono (by omega))
      second.variables (by omega) output

/-- Every environment of a trace is sound, in its function and in the closures. -/
def GenTrace.Sound (trace : GenTrace) : Prop :=
  ∀ events ∈ trace.functions, ∀ self, .state self ∈ events → self.Sound

theorem GenTrace.sound_append (first second : GenTrace) :
    (first ++ second).Sound ↔ first.Sound ∧ second.Sound := by
  simp only [GenTrace.Sound, GenTrace.functions, List.forall_mem_cons, append_own, append_closures,
    List.mem_append, or_imp, forall_and]
  tauto

/-- Where no variable is rebound in its own initialiser, sound environments force every argument list
to be anchored: its variables are still there when its registers have been popped. -/
theorem Generates.anchored {g g' : Scope} {piece : Piece} {code : Bytecode} {trace : GenTrace}
    (run : Generates g piece code g' trace) (clean : piece.NoRebinding) (sound : trace.Sound) :
    piece.Anchored := by
  induction run with
  | leaf single => exact leaf_anchored single
  | shortCircuit named first second sides joined tested ih₁ ih₂ =>
    simp only [GenTrace.sound_append] at sound
    simp only [Piece.Anchored]
    rw [Expr.Anchored.eq_def]
    simp only [named, if_true]
    exact ⟨ih₁ clean.1 sound.1.1, ih₂ clean.2.1 sound.1.2⟩
  | @operation g g₁ g₂ g₃ out e es res argsTrace locations outputs states instr operands evaluated
      generated popped snapshots placed finished ih =>
    have inArguments : NoRebindings es := (operation_bindings operands).2.mp clean
    rw [GenTrace.sound_append] at sound
    refine (operation_anchored operands).mpr ⟨ih inArguments sound.1, fun ⟨x, offset⟩ member => ?_⟩
    have nonempty : 0 < es.length := by
      rcases es with _ | ⟨e', es⟩
      · cases member
      · exact Nat.succ_pos _
    obtain ⟨self, present, env, count⟩ := (popStates_spec snapshots).2 nonempty
    have last : self.Sound := sound.2 _ List.mem_cons_self self (by simpa using present)
    obtain ⟨reg, found, k, rfl, position⟩ := generated.variables.bound inArguments x offset member
    obtain ⟨_, same, bounded⟩ := last.bounded x _ (env ▸ found)
    cases same
    have total := generated.frame.1
    rw [UInt8.le_iff_toNat_le] at bounded
    simp only [Piece.leak] at total
    omega
  | branch first second allocated third joined tested ih₁ ih₂ ih₃ =>
    simp only [GenTrace.sound_append] at sound
    exact ⟨ih₃ clean.1 sound.1.2, ih₁ clean.2.1 sound.1.1.1.1, ih₂ clean.2.2 sound.1.1.1.2⟩
  | binding fresh allocated generated ih =>
    simp only [GenTrace.sound_append] at sound
    exact ih clean.1 sound.1.2
  | @closure g child child' out params body code bodyTrace size jump entered generated sized jumped
      ih =>
    rw [GenTrace.sound_append] at sound
    refine ih clean fun events member => ?_
    rcases List.mem_cons.mp member with rfl | member
    · intro self present
      exact sound.2 _ (List.mem_cons_of_mem _ List.mem_cons_self) self
        (by simp [functionEvents, present])
    · exact sound.2 events (List.mem_cons_of_mem _ (List.mem_cons_of_mem _ member))
  | argsNil g => trivial
  | argsCons allocated first second ih₁ ih₂ =>
    simp only [GenTrace.sound_append] at sound
    exact ⟨ih₁ clean.1 sound.1.2, ih₂ clean.2 sound.2⟩
  | blockNil g out => trivial
  | exprsNil g out => trivial
  | blockCons first second ih₁ ih₂ | exprsCons first second ih₁ ih₂ =>
    simp only [GenTrace.sound_append] at sound
    exact ⟨ih₁ clean.1 sound.1, ih₂ clean.2 sound.2⟩

private theorem traceFunction_generates {moduleName : Name} {f : FunctionDef} {fn : Function}
    (accepted : generateFunction moduleName f = .ok fn) :
    ∃ self code g' trace, FnGenerator.new moduleName f.name f.args = .ok self ∧
      traceFunction moduleName f = .ok (functionEvents self trace.own :: trace.closures) ∧
      Generates { self, parents := [] } (.block (.register 0) f.body) code g' trace := by
  simp only [generateFunction, generateCode, Except.bind_eq_ok, Prod.exists, Except.pure_eq_ok,
    Prod.mk.injEq] at accepted
  obtain ⟨self, created, _, _, ⟨code, g', generated, -, -⟩, -⟩ := accepted
  obtain ⟨trace, tracedOk, run⟩ := generates_block (fun e _ => traced e) generated
  refine ⟨self, code, g', trace, created, ?_, run⟩
  simp [traceFunction, created, tracedOk, Except.ok_bind, pure, Except.pure]

/-- The variables of an accepted function survive if every argument list of its body is anchored.
Where no variable is rebound in its own initialiser, they survive only then. -/
theorem namedVariables_survive_iff_anchored {moduleName : Name} {f : FunctionDef} {fn : Function}
    (accepted : generateFunction moduleName f = .ok fn) :
    (AllAnchored f.body → NamedVariablesSurvive moduleName f) ∧
      (NoRebindings f.body → NamedVariablesSurvive moduleName f → AllAnchored f.body) := by
  obtain ⟨self, code, g', trace, created, tracedOk, run⟩ := traceFunction_generates accepted
  obtain ⟨sound, parameters⟩ := FnGenerator.new_sound created
  constructor
  · intro anchored
    have survives := run.survives anchored sound (by rintro reg ⟨⟩; exact ⟨0, rfl, Nat.zero_le _⟩)
    exact ⟨_, tracedOk, List.forall_mem_cons.mpr
      ⟨survives.own.functionEvents sound parameters run.variables.writes, survives.closures⟩⟩
  · rintro clean ⟨functions, same, survive⟩
    cases tracedOk.symm.trans same
    obtain ⟨own, closures⟩ := List.forall_mem_cons.mp survive
    refine run.anchored clean (List.forall_mem_cons.mpr ⟨fun state member => ?_, fun events member =>
      (closures events member).sound⟩)
    exact own.sound state (by simp [functionEvents, member])

/-- `fn f(x) { (if if x {} { let a = 2 }) let b = 1 (a, b) }`. -/
def anchoredFunction : FunctionDef where
  name := bytes "f"
  args := [bytes "x"]
  body := [.tuple [.if (.if (.ident (bytes "x")) [] []) [.let (bytes "a") (.int (bytes "2"))] []],
    .let (bytes "b") (.int (bytes "1")), .tuple [.ident (bytes "a"), .ident (bytes "b")]]

/-- A variable may be bound in an argument, when a condition generated after it keeps a register. -/
theorem namedVariables_survive_condition : NamedVariablesSurvive (bytes "M") anchoredFunction := by
  obtain ⟨fn, accepted⟩ : ∃ fn, generateFunction (bytes "M") anchoredFunction = .ok fn := ⟨_, rfl⟩
  have inner : AllAnchored [.if (.if (.ident (bytes "x")) [] []) [.let (bytes "a") (.int (bytes "2"))] []] :=
    ⟨⟨⟨trivial, trivial, trivial⟩, ⟨trivial, trivial⟩, trivial⟩, trivial⟩
  have pair : AllAnchored [.ident (bytes "a"), .ident (bytes "b")] := ⟨trivial, trivial, trivial⟩
  exact (namedVariables_survive_iff_anchored accepted).1
    ⟨⟨inner, by decide⟩, trivial, ⟨pair, by decide⟩, trivial⟩

/-- `fn f() { (let a = 1, 2) (3, a) }`. -/
def overwritingFunction : FunctionDef where
  name := bytes "f"
  args := []
  body := [.tuple [.let (bytes "a") (.int (bytes "1")), .int (bytes "2")],
    .tuple [.int (bytes "3"), .ident (bytes "a")]]

/-- The second tuple generates its first element into the register of `a`. -/
theorem namedVariables_overwritten : ¬ ∀ moduleName f fn, generateFunction moduleName f = .ok fn →
    NamedVariablesSurvive moduleName f := by
  intro survive
  obtain ⟨functions, traced, all⟩ := survive (bytes "M") overwritingFunction _ rfl
  obtain rfl := Except.ok.inj traced
  exact absurd (all _ List.mem_cons_self).kept (by decide)

end Owl.Compiler
