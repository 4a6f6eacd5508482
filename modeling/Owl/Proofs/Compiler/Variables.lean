import Owl.Proofs.Compiler.Operations

/-! # Where variables live

A `let` binds its name to the register it pushed, at an offset from the counter that depends on the
syntax alone. These offsets say which variables an expression leaves behind, in which registers, and
which registers its instructions may write.
-/

namespace Owl.Compiler

/-- Names with the offset of their register from a counter. -/
abbrev Bindings := List (Name × ℕ)

/-- The same bindings, seen from a counter that is lower by `step`. -/
def Bindings.raise (bindings : Bindings) (step : ℕ) : Bindings :=
  bindings.map fun binding => (binding.1, binding.2 + step)

theorem Bindings.mem_raise {bindings : Bindings} {step offset : ℕ} {x : Name} :
    (x, offset) ∈ bindings.raise step ↔ ∃ below, (x, below) ∈ bindings ∧ offset = below + step := by
  simp only [raise, List.mem_map, Prod.mk.injEq, Prod.exists]
  constructor
  · rintro ⟨_, below, member, rfl, rfl⟩
    exact ⟨below, member, rfl⟩
  · rintro ⟨below, member, rfl⟩
    exact ⟨x, below, member, rfl, rfl⟩

theorem Bindings.raise_raise (bindings : Bindings) (first second : ℕ) :
    (bindings.raise first).raise second = bindings.raise (second + first) := by
  simp [raise, Nat.add_assoc, Nat.add_comm first]

mutual

/-- The variables that an expression binds in its own function. -/
def Expr.bindings : Expr → Bindings
  | .let left right => right.bindings.raise 1 ++ [(left, 1)]
  | .if condition body elseBody =>
      exprBindings body ++ (exprBindings elseBody).raise (leaks body) ++
        condition.bindings.raise (leaks body + leaks elseBody + 1)
  | .apply _ name args =>
      if IsShortCircuit name then
        match args with
        | left :: right :: _ => left.bindings ++ right.bindings.raise left.leak
        | _ => []
      else argBindings args
  | .tuple elems => argBindings elems
  | .list elems => argBindings elems
  | _ => []

def argBindings : List Expr → Bindings
  | [] => []
  | e :: es => e.bindings.raise 1 ++ (argBindings es).raise (1 + e.leak)

def exprBindings : List Expr → Bindings
  | [] => []
  | e :: es => e.bindings ++ (exprBindings es).raise e.leak

end

def Piece.bindings : Piece → Bindings
  | expr _ e => e.bindings
  | args es => argBindings es
  | block _ es => exprBindings es
  | exprs _ es => exprBindings es

/-- The output register of a piece; arguments have one each. -/
def Piece.out? : Piece → Option VarRef
  | expr out _ => some out
  | args _ => none
  | block out _ => some out
  | exprs out _ => some out

mutual

/-- No `let` binds its own name again in its initialiser. Every other rebinding is refused. -/
def Expr.NoRebinding : Expr → Prop
  | .let left right => right.NoRebinding ∧ ∀ offset, (left, offset) ∉ right.bindings
  | .if condition body elseBody =>
      condition.NoRebinding ∧ NoRebindings body ∧ NoRebindings elseBody
  | .apply _ _ args => NoRebindings args
  | .tuple elems => NoRebindings elems
  | .list elems => NoRebindings elems
  | .anonFn _ body => NoRebindings body
  | _ => True

def NoRebindings : List Expr → Prop
  | [] => True
  | e :: es => e.NoRebinding ∧ NoRebindings es

end

def Piece.NoRebinding : Piece → Prop
  | expr _ e => e.NoRebinding
  | args es => NoRebindings es
  | block _ es => NoRebindings es
  | exprs _ es => NoRebindings es

theorem leaf_bindings {g g' : Scope} {out : VarRef} {e : Expr} {instr : Instruction}
    (single : leafInstr g out e = some (instr, g')) : e.bindings = [] := by
  cases e <;> first | rfl | contradiction

theorem operation_bindings {e : Expr} {es : List Expr} (operands : e.operandExprs = some es) :
    e.bindings = argBindings es ∧ (e.NoRebinding ↔ NoRebindings es) := by
  cases e <;> simp only [Expr.operandExprs, reduceCtorEq] at operands
  case apply module name args =>
    split at operands
    · contradiction
    · next notShort =>
      cases operands
      rw [Expr.bindings.eq_def]
      simp only [notShort, if_false, Expr.NoRebinding, and_self]
  all_goals cases operands; exact ⟨rfl, Iff.rfl⟩

theorem Scope.lookup_insertEnv (g : Scope) (x y : Name) (reg : VarRef) :
    (g.insertEnv y reg).self.env.lookup x = if x = y then some reg else g.self.env.lookup x := by
  by_cases same : x = y
  · simp [Scope.insertEnv, same]
  · simp [Scope.insertEnv, List.lookup_cons, same, beq_false_of_ne same]

def GenEvent.writes : GenEvent → Option VarRef
  | .emit instr _ => instr.writes
  | _ => none

/-- A register at an offset from a counter. -/
def AtOffset (base offset : ℕ) (reg : VarRef) : Prop :=
  ∃ k : UInt8, reg = .register k ∧ k.toNat = base + offset

theorem AtOffset.raise {base step offset : ℕ} {reg : VarRef}
    (position : AtOffset (base + step) offset reg) : AtOffset base (offset + step) reg := by
  obtain ⟨k, rfl, position⟩ := position
  exact ⟨k, rfl, by omega⟩

/-- A register above a counter. -/
def Above (base : ℕ) (reg : VarRef) : Prop := ∃ k : UInt8, reg = .register k ∧ base < k.toNat

theorem Above.mono {base base' : ℕ} {reg : VarRef} (above : Above base reg) (lower : base' ≤ base) :
    Above base' reg := by
  obtain ⟨k, rfl, position⟩ := above
  exact ⟨k, rfl, by omega⟩

/-- What a piece leaves in the environment, and what its instructions write. A variable rebound in
its own initialiser is lost from the environment, hence the guard of `bound`. -/
structure Variables (g : Scope) (out? : Option VarRef) (bindings : Bindings) (clean : Prop)
    (g' : Scope) (events : List GenEvent) : Prop where
  positive : ∀ x offset, (x, offset) ∈ bindings → 0 < offset
  kept : ∀ x reg, g.self.env.lookup x = some reg → g'.self.env.lookup x = some reg
  origin : ∀ x reg, g'.self.env.lookup x = some reg → g.self.env.lookup x = some reg ∨
    ∃ offset, (x, offset) ∈ bindings ∧ AtOffset g.self.varCount.toNat offset reg
  bound : clean → ∀ x offset, (x, offset) ∈ bindings →
    ∃ reg, g'.self.env.lookup x = some reg ∧ AtOffset g.self.varCount.toNat offset reg
  binds : ∀ x reg, .bind x reg ∈ events →
    ∃ offset, (x, offset) ∈ bindings ∧ AtOffset g.self.varCount.toNat offset reg
  writes : ∀ event ∈ events, ∀ reg, event.writes = some reg →
    out? = some reg ∨ Above g.self.varCount.toNat reg

namespace Variables

variable {g g₁ g₂ : Scope} {out? : Option VarRef} {first second : Bindings}
  {clean clean₁ clean₂ : Prop} {events events₁ events₂ : List GenEvent}

/-- A step that binds nothing and writes only the output register. -/
theorem of_frame (env : g₁.self.env = g.self.env)
    (binds : ∀ x reg, GenEvent.bind x reg ∉ events)
    (writes : ∀ event ∈ events, ∀ reg, event.writes = some reg → out? = some reg) :
    Variables g out? [] clean g₁ events where
  positive := by simp
  kept x reg found := env ▸ found
  origin x reg found := .inl (env ▸ found)
  bound := by simp
  binds x reg member := absurd member (binds x reg)
  writes event member reg written := .inl (writes event member reg written)

/-- Two steps in sequence, the second from a counter raised by `step` and into an output register
that is either the same or a new one. -/
theorem append {step : ℕ} {out₂? : Option VarRef} (left : Variables g out? first clean₁ g₁ events₁)
    (raised : g₁.self.varCount.toNat = g.self.varCount.toNat + step)
    (right : Variables g₁ out₂? second clean₂ g₂ events₂)
    (output : ∀ reg, out₂? = some reg → out? = some reg ∨ Above g.self.varCount.toNat reg)
    (parts : clean → clean₁ ∧ clean₂) :
    Variables g out? (first ++ second.raise step) clean g₂ (events₁ ++ events₂) where
  positive x offset member := by
    rcases List.mem_append.mp member with member | member
    · exact left.positive x offset member
    · obtain ⟨below, lower, rfl⟩ := Bindings.mem_raise.mp member
      have := right.positive x below lower
      omega
  kept x reg found := right.kept _ _ (left.kept _ _ found)
  origin x reg found := by
    rcases right.origin x reg found with old | ⟨offset, member, position⟩
    · rcases left.origin x reg old with older | ⟨offset, member, position⟩
      · exact .inl older
      · exact .inr ⟨offset, List.mem_append_left _ member, position⟩
    · rw [raised] at position
      exact .inr ⟨offset + step, List.mem_append_right _
        (Bindings.mem_raise.mpr ⟨offset, member, rfl⟩), position.raise⟩
  bound isClean x offset member := by
    rcases List.mem_append.mp member with member | member
    · obtain ⟨reg, found, position⟩ := left.bound (parts isClean).1 x offset member
      exact ⟨reg, right.kept _ _ found, position⟩
    · obtain ⟨below, lower, rfl⟩ := Bindings.mem_raise.mp member
      obtain ⟨reg, found, position⟩ := right.bound (parts isClean).2 x below lower
      rw [raised] at position
      exact ⟨reg, found, position.raise⟩
  binds x reg member := by
    rcases List.mem_append.mp member with member | member
    · obtain ⟨offset, member, position⟩ := left.binds x reg member
      exact ⟨offset, List.mem_append_left _ member, position⟩
    · obtain ⟨offset, member, position⟩ := right.binds x reg member
      rw [raised] at position
      exact ⟨offset + step, List.mem_append_right _
        (Bindings.mem_raise.mpr ⟨offset, member, rfl⟩), position.raise⟩
  writes event member reg written := by
    rcases List.mem_append.mp member with member | member
    · exact left.writes event member reg written
    · rcases right.writes event member reg written with same | above
      · exact output reg same
      · exact .inr (above.mono (by omega))

/-- A step after the allocation of its output register. -/
theorem pushed {reg : VarRef} (allocated : g.push = .ok (reg, g₁))
    (value : Variables g₁ (some reg) first clean g₂ events) :
    Variables g out? (first.raise 1) clean g₂ (.state g₁.self :: events) := by
  obtain ⟨varCount, next, rfl, rfl⟩ := Scope.push_ok allocated
  have start : Variables g out? [] True { g with self := { g.self with varCount } }
      [.state { g.self with varCount }] :=
    of_frame rfl (by simp) (by simp [GenEvent.writes])
  refine start.append next value ?_ fun isClean => ⟨trivial, isClean⟩
  rintro reg same
  cases same
  exact .inr ⟨varCount, rfl, by omega⟩

/-- Steps that bind nothing may follow a step, wherever they leave the counter. -/
theorem followed (left : Variables g out? first clean g₁ events₁)
    (env : g₂.self.env = g₁.self.env) (binds : ∀ x reg, GenEvent.bind x reg ∉ events₂)
    (writes : ∀ event ∈ events₂, ∀ reg, event.writes = some reg → out? = some reg) :
    Variables g out? first clean g₂ (events₁ ++ events₂) where
  positive := left.positive
  kept x reg found := env ▸ left.kept x reg found
  origin x reg found := left.origin x reg (env ▸ found)
  bound isClean x offset member := env ▸ left.bound isClean x offset member
  binds x reg member := (List.mem_append.mp member).elim (left.binds x reg)
    fun member => absurd member (binds x reg)
  writes event member reg written := (List.mem_append.mp member).elim
    (fun member => left.writes event member reg written)
    fun member => .inl (writes event member reg written)

/-- A step without an output register may be placed under any. -/
theorem of_none (step : Variables g none first clean g₁ events) :
    Variables g out? first clean g₁ events where
  positive := step.positive
  kept := step.kept
  origin := step.origin
  bound := step.bound
  binds := step.binds
  writes event member reg written := by
    rcases step.writes event member reg written with same | higher
    · cases same
    · exact .inr higher

/-- The insertion that ends a `let`. -/
theorem insert {left : Name} {var : VarRef} (value : Variables g out? first clean₁ g₁ events)
    (fresh : g.self.env.lookup left = none) (position : AtOffset g.self.varCount.toNat 1 var)
    (parts : clean → clean₁ ∧ ∀ offset, (left, offset) ∉ first) {self : FnGenerator} :
    Variables g out? (first ++ [(left, 1)]) clean (g₁.insertEnv left var)
      (events ++ [.state self, .bind left var]) where
  positive x offset member := by
    rcases List.mem_append.mp member with member | member
    · exact value.positive x offset member
    · obtain ⟨rfl, rfl⟩ := Prod.mk.inj (List.mem_singleton.mp member)
      exact Nat.one_pos
  kept x reg found := by
    have other : x ≠ left := by
      rintro rfl
      rw [fresh] at found
      cases found
    rw [Scope.lookup_insertEnv, if_neg other]
    exact value.kept x reg found
  origin x reg found := by
    rw [Scope.lookup_insertEnv] at found
    split at found
    · next same =>
      cases found
      exact .inr ⟨1, by simp [same], position⟩
    · exact (value.origin x reg found).imp id fun ⟨offset, member, position⟩ =>
        ⟨offset, List.mem_append_left _ member, position⟩
  bound isClean x offset member := by
    rcases List.mem_append.mp member with inner | last
    · have other : x ≠ left := fun same => (parts isClean).2 offset (same ▸ inner)
      simpa only [Scope.lookup_insertEnv, if_neg other] using
        value.bound (parts isClean).1 x offset inner
    · obtain ⟨rfl, rfl⟩ := Prod.mk.inj (List.mem_singleton.mp last)
      exact ⟨var, by rw [Scope.lookup_insertEnv, if_pos rfl], position⟩
  binds x reg member := by
    rcases List.mem_append.mp member with member | member
    · obtain ⟨offset, member, position⟩ := value.binds x reg member
      exact ⟨offset, List.mem_append_left _ member, position⟩
    · obtain ⟨rfl, rfl⟩ : x = left ∧ reg = var := by simpa using member
      exact ⟨1, by simp, position⟩
  writes event member reg written := by
    rcases List.mem_append.mp member with member | member
    · exact value.writes event member reg written
    · rcases List.mem_cons.mp member with rfl | member
      · cases written
      · cases List.mem_singleton.mp member
        cases written

end Variables

/-- Where a run of the generator leaves its variables. -/
theorem Generates.variables {g g' : Scope} {piece : Piece} {code : Bytecode} {trace : GenTrace}
    (run : Generates g piece code g' trace) :
    Variables g piece.out? piece.bindings piece.NoRebinding g' trace.own := by
  induction run with
  | leaf single =>
    obtain ⟨-, -, written⟩ := leafInstr_writes single
    have none := leaf_bindings single
    simp only [Piece.bindings, none]
    refine .of_frame (leafInstr_extends single).self.env (by simp [emits]) ?_
    simp [emits, GenEvent.writes, written, Piece.out?]
  | @shortCircuit g g₁ g₂ out module name left right rest leftCode rightCode thenBranch elseBranch
      code jumps leftTrace rightTrace named first second sides joined tested ih₁ ih₂ =>
    have both := ih₁.append first.frame.1 ih₂ (fun _ same => .inl same) fun
      isClean : (Piece.expr out (.apply module name (left :: right :: rest))).NoRebinding =>
        ⟨isClean.1, isClean.2.1⟩
    have bindings : (Expr.apply module name (left :: right :: rest)).bindings =
        left.bindings ++ right.bindings.raise left.leak := by
      rw [Expr.bindings.eq_def]
      simp only [named, if_true]
    simp only [Piece.bindings, bindings]
    refine both.followed rfl (by simp [emits]) ?_
    intro event member reg written
    obtain ⟨instr, present, rfl⟩ := List.mem_map.mp member
    simp [GenEvent.writes, branchInstrs_writes tested instr present] at written
  | operation operands evaluated generated popped snapshots placed finished ih =>
    obtain ⟨bindings, clean⟩ := operation_bindings operands
    obtain ⟨varCount, -, rfl⟩ := Scope.argLocations_ok popped
    simp only [Piece.bindings, bindings, Piece.NoRebinding, clean]
    refine ih.of_none.followed (finishOperation_extends finished).self.env (by simp) ?_
    intro event member reg written
    rcases List.mem_append.mp member with member | member
    · obtain ⟨self, -, rfl⟩ := List.mem_map.mp member
      cases written
    · cases List.mem_singleton.mp member
      exact congrArg some ((finishOperation_finished finished).writes reg written).symm
  | @branch g g₁ g₂ g₃ g₄ out conditionOut condition body elseBody thenBranch elseBranch res code
      jumps thenTrace elseTrace conditionTrace first second allocated third joined tested
      ih₁ ih₂ ih₃ =>
    have ⟨varCount, next, same, pushed⟩ := Scope.push_ok allocated
    have thenCount := first.frame.1
    have elseCount := second.frame.1
    simp only [Piece.leak] at thenCount elseCount
    have blocks := ih₁.append first.frame.1 ih₂ (fun _ same => .inl same) fun
      isClean : NoRebindings body ∧ NoRebindings elseBody => isClean
    have started : Variables g _ _ _ g₃ (_ ++ [.state g₃.self]) :=
      blocks.followed (by rw [pushed]) (by simp) (by simp [GenEvent.writes])
    have raised : g₃.self.varCount.toNat =
        g.self.varCount.toNat + (leaks body + leaks elseBody + 1) := by
      rw [pushed]
      dsimp only
      omega
    have conditional := started.append raised ih₃ (by
        rintro reg ⟨⟩
        exact .inr ⟨varCount, same, by omega⟩) fun
      isClean : (Piece.expr out (.if condition body elseBody)).NoRebinding => ⟨isClean.2, isClean.1⟩
    refine conditional.followed rfl (by simp [emits]) ?_
    intro event member reg written
    obtain ⟨instr, present, rfl⟩ := List.mem_map.mp member
    simp [GenEvent.writes, branchInstrs_writes tested instr present] at written
  | @binding g g₁ g₂ out var left right code rightTrace fresh allocated generated ih =>
    have unbound : g.self.env.lookup left = none := by
      simp only [Scope.identifierExistsInScope, List.any_cons, Bool.or_eq_false_iff] at fresh
      simpa using fresh.1
    have ⟨varCount, next, same, _⟩ := Scope.push_ok allocated
    refine (ih.pushed allocated).insert unbound ⟨varCount, same, next⟩ fun isClean => ?_
    refine ⟨isClean.1, fun offset member => ?_⟩
    obtain ⟨below, lower, -⟩ := Bindings.mem_raise.mp member
    exact isClean.2 below lower
  | closure entered generated sized jumped ih =>
    have parents := generated.frame.2.2.2
    rw [(Scope.child_parents entered).1] at parents
    refine .of_frame (Scope.leave_extends parents).self.env ?_ ?_
    · simp [emits]
    · simp [emits, GenEvent.writes, Instruction.writes, Piece.out?]
  | argsNil g => exact .of_frame rfl (by simp) (fun _ member => absurd member List.not_mem_nil)
  | @argsCons g g₁ g₂ g₃ argOut e es code rest argTrace restTrace allocated first second ih₁ ih₂ =>
    have ⟨varCount, next, _, pushed⟩ := Scope.push_ok allocated
    have head := first.frame.1
    have raised : g₂.self.varCount.toNat = g.self.varCount.toNat + (1 + e.leak) := by
      rw [pushed] at head
      simp only [Piece.leak] at head
      omega
    exact (ih₁.pushed allocated).append raised ih₂ (fun _ same => .inl same) id
  | blockNil g out =>
    exact .of_frame rfl (by simp [emits]) (by
      simp [emits, GenEvent.writes, Instruction.writes, Piece.out?])
  | exprsNil g out => exact .of_frame rfl (by simp) (fun _ member => absurd member List.not_mem_nil)
  | blockCons first second ih₁ ih₂ | exprsCons first second ih₁ ih₂ =>
    exact ih₁.append first.frame.1 ih₂ (fun _ same => .inl same) id

end Owl.Compiler
