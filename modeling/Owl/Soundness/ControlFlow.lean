import Owl.Model.Compiler.Control
import Owl.Soundness.InstructionWidths
import Owl.Proofs.Compiler.Operations

/-! # Generated code follows the source

The code of an expression, embedded at any place of any code, runs through the instructions that the
source asks for and stops behind itself. The induction is on the expression; the offsets of a branch are
sums of the sizes of its sides, so each side sits where the jumps lead.
-/

namespace Owl.Compiler

def generatePiece (g : Scope) : Piece → Except Panic (Bytecode × Scope)
  | .expr out e => generateExpr g out e
  | .args es => generateArgs g es
  | .block out es => generateBlock g out es
  | .exprs out es => generateExprs g out es

/-- `&&` needs its right side where the left one is truthy, `||` where it is falsey. -/
def needsRight (name : Name) (left : Bool) : Bool := if name = bytes "&&" then left else !left

/-- What runs where a piece of the source is executed whose code starts at a position: the instructions
of its parts in the order of the source, each at its position. -/
inductive Executes {σ : Type} (m : Machine σ) : Scope → Piece → ℕ → σ → List (ℕ × Instruction) → σ → Prop
  | leaf {g g' : Scope} {out : VarRef} {e : Expr} {instr : Instruction} {position : ℕ} {s : σ}
      (single : leafInstr g out e = some (instr, g')) :
      Executes m g (.expr out e) position s [(position, instr)] (m.act instr s)
  | operation {g g₁ g₂ g₃ : Scope} {out : VarRef} {e : Expr} {es : List Expr} {code : Bytecode}
      {locations : List VarRef} {instr : Instruction} {position : ℕ} {s s₁ : σ} {visited : List (ℕ × Instruction)}
      (operands : e.operandExprs = some es) (evaluated : generateArgs g es = .ok (code, g₁))
      (popped : g₁.argLocations es = .ok (locations, g₂))
      (finished : finishOperation g₂ out locations e = .ok (instr, g₃))
      (args : Executes m g (.args es) position s visited s₁) :
      Executes m g (.expr out e) position s (visited ++ [(position + spanOf code, instr)]) (m.act instr s₁)
  | right {g g₁ g₂ : Scope} {out : VarRef} {module : Option Name} {name : Name} {left right : Expr}
      {rest : List Expr} {leftCode front rightCode : Bytecode} {position : ℕ} {s s₁ s₂ : σ}
      {first second : List (ℕ × Instruction)} (named : IsShortCircuit name)
      (leftGenerated : generateExpr g out left = .ok (leftCode, g₁))
      (rightGenerated : generateExpr g₁ out right = .ok (rightCode, g₂))
      (whole : generateExpr g out (.apply module name (left :: right :: rest)) = .ok (front ++ rightCode, g₂))
      (leftRuns : Executes m g (.expr out left) position s first s₁)
      (needed : needsRight name (m.truthy s₁ out) = true)
      (rightRuns : Executes m g₁ (.expr out right) (position + spanOf front) s₁ second s₂) :
      Executes m g (.expr out (.apply module name (left :: right :: rest))) position s (first ++ second) s₂
  | leftOnly {g : Scope} {out : VarRef} {module : Option Name} {name : Name} {left right : Expr}
      {rest : List Expr} {position : ℕ} {s s₁ : σ} {first : List (ℕ × Instruction)} (named : IsShortCircuit name)
      (leftRuns : Executes m g (.expr out left) position s first s₁)
      (needless : needsRight name (m.truthy s₁ out) = false) :
      Executes m g (.expr out (.apply module name (left :: right :: rest))) position s first s₁
  | thenBranch {g g₁ g₂ g₃ g₄ : Scope} {out conditionOut : VarRef} {condition : Expr} {body elseBody : List Expr}
      {thenCode elseCode front : Bytecode} {position : ℕ} {s s₁ s₂ : σ} {first second : List (ℕ × Instruction)}
      (thenGenerated : generateBlock g out body = .ok (thenCode, g₁))
      (elseGenerated : generateBlock g₁ out elseBody = .ok (elseCode, g₂))
      (allocated : g₂.push = .ok (conditionOut, g₃))
      (whole : generateExpr g out (.if condition body elseBody) = .ok (front ++ thenCode, g₄))
      (conditionRuns : Executes m g₃ (.expr conditionOut condition) position s first s₁)
      (chosen : m.truthy s₁ conditionOut = true)
      (branchRuns : Executes m g (.block out body) (position + spanOf front) s₁ second s₂) :
      Executes m g (.expr out (.if condition body elseBody)) position s (first ++ second) s₂
  | elseBranch {g g₁ g₂ g₃ g₄ : Scope} {out conditionOut : VarRef} {condition : Expr} {body elseBody : List Expr}
      {thenCode elseCode conditionCode back : Bytecode} {test : Instruction} {position : ℕ} {s s₁ s₂ : σ}
      {first second : List (ℕ × Instruction)}
      (thenGenerated : generateBlock g out body = .ok (thenCode, g₁))
      (elseGenerated : generateBlock g₁ out elseBody = .ok (elseCode, g₂))
      (allocated : g₂.push = .ok (conditionOut, g₃))
      (conditionGenerated : generateExpr g₃ conditionOut condition = .ok (conditionCode, g₄))
      (whole : generateExpr g out (.if condition body elseBody) =
        .ok (conditionCode ++ [test] ++ elseCode ++ back, g₄))
      (conditionRuns : Executes m g₃ (.expr conditionOut condition) position s first s₁)
      (chosen : m.truthy s₁ conditionOut = false)
      (branchRuns : Executes m g₁ (.block out elseBody) (position + spanOf (conditionCode ++ [test])) s₁ second s₂) :
      Executes m g (.expr out (.if condition body elseBody)) position s (first ++ second) s₂
  | binding {g g₁ : Scope} {out var : VarRef} {left : Name} {right : Expr} {position : ℕ} {s s₁ : σ}
      {visited : List (ℕ × Instruction)} (allocated : g.push = .ok (var, g₁))
      (rightRuns : Executes m g₁ (.expr var right) position s visited s₁) :
      Executes m g (.expr out (.let left right)) position s visited s₁
  | closure {g g' : Scope} {out dst : VarRef} {params : List Name} {body : List Expr} {code : Bytecode}
      {jump arity : UInt8} {upvals : List VarRef} {position : ℕ} {s : σ}
      (generated : generateExpr g out (.anonFn params body) = .ok (.anonFn dst jump arity upvals :: code, g')) :
      Executes m g (.expr out (.anonFn params body)) position s [(position, .anonFn dst jump arity upvals)]
        (m.create dst (position + spanOf [.anonFn dst jump arity upvals]) upvals s)
  | argsNil {g : Scope} {position : ℕ} {s : σ} : Executes m g (.args []) position s [] s
  | argsCons {g g₁ g₂ : Scope} {argOut : VarRef} {e : Expr} {es : List Expr} {code : Bytecode} {position : ℕ}
      {s s₁ s₂ : σ} {first second : List (ℕ × Instruction)} (allocated : g.push = .ok (argOut, g₁))
      (generated : generateExpr g₁ argOut e = .ok (code, g₂))
      (firstRuns : Executes m g₁ (.expr argOut e) position s first s₁)
      (restRuns : Executes m g₂ (.args es) (position + spanOf code) s₁ second s₂) :
      Executes m g (.args (e :: es)) position s (first ++ second) s₂
  | blockNil {g : Scope} {out : VarRef} {position : ℕ} {s : σ} :
      Executes m g (.block out []) position s [(position, .storeNil out)] (m.act (.storeNil out) s)
  | blockCons {g g₁ : Scope} {out : VarRef} {e : Expr} {es : List Expr} {code : Bytecode} {position : ℕ}
      {s s₁ s₂ : σ} {first second : List (ℕ × Instruction)}
      (generated : generateExpr g out e = .ok (code, g₁))
      (firstRuns : Executes m g (.expr out e) position s first s₁)
      (restRuns : Executes m g₁ (.exprs out es) (position + spanOf code) s₁ second s₂) :
      Executes m g (.block out (e :: es)) position s (first ++ second) s₂
  | exprsNil {g : Scope} {out : VarRef} {position : ℕ} {s : σ} : Executes m g (.exprs out []) position s [] s
  | exprsCons {g g₁ : Scope} {out : VarRef} {e : Expr} {es : List Expr} {code : Bytecode} {position : ℕ}
      {s s₁ s₂ : σ} {first second : List (ℕ × Instruction)}
      (generated : generateExpr g out e = .ok (code, g₁))
      (firstRuns : Executes m g (.expr out e) position s first s₁)
      (restRuns : Executes m g₁ (.exprs out es) (position + spanOf code) s₁ second s₂) :
      Executes m g (.exprs out (e :: es)) position s (first ++ second) s₂

section Spans

variable {instr : Instruction} {code before after : Bytecode}

private theorem span_pos (instr : Instruction) : 0 < instr.span := by
  cases instr
  case call | callLocal | tuple | list | anonFn => exact Nat.add_pos_left (by decide) _
  all_goals exact of_decide_eq_true rfl

private theorem span_eq {size : UInt8} (sized : instr.byteSize = .ok size) : size.toNat = instr.span := by
  cases instr
  case call | callLocal | tuple | list | anonFn => exact checkedAdd_ok sized
  all_goals
    cases sized
    rfl

theorem spanOf_append (first second : Bytecode) : spanOf (first ++ second) = spanOf first + spanOf second := by
  rw [spanOf, spanOf, spanOf, List.map_append, List.sum_append]

theorem spanOf_cons (instr : Instruction) (code : Bytecode) : spanOf (instr :: code) = instr.span + spanOf code := rfl

/-- The sum that a jump skips is the length of the code in the layout. -/
theorem spanOf_eq {size : UInt8} (sized : byteSizeOf code = .ok size) : size.toNat = spanOf code := by
  have fold : ∀ (code : Bytecode) (acc size : UInt8), code.foldlM (fun acc instr => do
      checkedAdd acc (← instr.byteSize)) acc = Except.ok size → size.toNat = acc.toNat + spanOf code := by
    intro code
    induction code with
    | nil =>
      rintro acc size ⟨⟩
      rfl
    | cons instr code ih =>
      intro acc size run
      rw [List.foldlM_cons] at run
      obtain ⟨next, step, rest⟩ := Except.bind_eq_ok.mp run
      obtain ⟨one, sizedOne, added⟩ := Except.bind_eq_ok.mp step
      rw [ih next size rest, checkedAdd_ok added, span_eq sizedOne, spanOf_cons, Nat.add_assoc]
  rw [fold code 0 size sized]
  exact Nat.zero_add _

/-- The instruction behind a piece of code. -/
theorem instrAt_append (before : Bytecode) (instr : Instruction) (after : Bytecode) :
    instrAt (before ++ instr :: after) (spanOf before) = some instr := by
  induction before with
  | nil => rfl
  | cons first before ih =>
    have positive := span_pos first
    rw [List.cons_append, instrAt, spanOf_cons, if_neg (by omega), if_neg (by omega), Nat.add_sub_cancel_left, ih]

end Spans

section Runs

variable {σ : Type} {m : Machine σ} {code before after : Bytecode} {instr : Instruction} {s s₁ s₂ : σ}
  {position middle stop : ℕ} {first second : List (ℕ × Instruction)}

theorem Machine.Runs.append (left : m.Runs code position s first middle s₁)
    (right : m.Runs code middle s₁ second stop s₂) : m.Runs code position s (first ++ second) stop s₂ := by
  induction left with
  | done => exact right
  | step found rest ih => exact .step found (ih right)

theorem Machine.runs_one (whole : code = before ++ instr :: after) (s : σ) :
    m.Runs code (spanOf before) s [(spanOf before, instr)] (m.next (spanOf before) s instr).1
      (m.next (spanOf before) s instr).2 := by
  rw [whole]
  exact .step (instrAt_append before instr after) (.done _ _)

theorem ordinary_append (first second : List (ℕ × Instruction)) :
    ordinary (first ++ second) = ordinary first ++ ordinary second := List.filter_append ..

/-- A piece of code runs, wherever it stands, as the source says of the piece. -/
def Follows (m : Machine σ) (g : Scope) (piece : Piece) (code : Bytecode) : Prop :=
  ∀ before after s, ∃ visited s', Executes m g piece (spanOf before) s (ordinary visited) s' ∧
    m.Runs (before ++ code ++ after) (spanOf before) s visited (spanOf (before ++ code)) s'

end Runs

def Instruction.isControl : Instruction → Bool
  | .anonFn _ _ _ _ => true
  | instr => instr.isJump

private theorem not_jump {instr : Instruction} (plain : instr.isControl = false) : instr.isJump = false := by
  cases instr
  case anonFn => contradiction
  all_goals exact plain

private theorem Machine.next_plain {σ : Type} (m : Machine σ) {instr : Instruction} (plain : instr.isControl = false)
    (position : ℕ) (s : σ) : m.next position s instr = (position + instr.span, m.act instr s) := by
  cases instr
  case test | jmp | anonFn => contradiction
  all_goals rfl

private theorem builtins_plain : ∀ entry ∈ builtins, entry.2.Always fun instr => instr.isControl = false := by
  simp only [builtins, List.forall_mem_cons, List.not_mem_nil, false_imp_iff, implies_true, and_true]
  refine ⟨?_, ?_, ?_, ?_, ?_, ?_, ?_, ?_, ?_, ?_, ?_, ?_, ?_, ?_, ?_, ?_, ?_, ?_, ?_, ?_, ?_, ?_⟩
  all_goals first
    | exact binary_always fun _ _ _ => rfl
    | exact unary_always fun _ _ => rfl
    | exact ternary_always fun _ _ _ _ => rfl
    | exact nullary_always fun _ => rfl

theorem finishOperation_plain {g g' : Scope} {out : VarRef} {locations : List VarRef} {e : Expr}
    {instr : Instruction} (finished : finishOperation g out locations e = .ok (instr, g')) :
    instr.isControl = false := by
  unfold finishOperation at finished
  split at finished
  · next module name args =>
    unfold Scope.applyOp at finished
    split at finished
    · next emitter found =>
      obtain ⟨result, emitted, same⟩ := Except.bind_eq_ok.mp finished
      cases same
      obtain ⟨before, after, split, -⟩ := List.lookup_eq_some_iff.mp found
      exact builtins_plain (name, emitter) (by rw [split]; simp) _ _ _ emitted
    · rw [← (Prod.mk.inj (Except.ok.inj finished)).1]
      generalize g.searchEnv name = found
      rcases found with ⟨_ | varRef, g₁⟩ <;> cases module <;> rfl
  · cases finished
    rfl
  · cases finished
    rfl
  · contradiction

theorem leafInstr_plain {g g' : Scope} {out : VarRef} {e : Expr} {instr : Instruction}
    (single : leafInstr g out e = some (instr, g')) : instr.isControl = false := by
  unfold leafInstr at single
  split at single
  · obtain ⟨val, _, same⟩ := Option.map_eq_some_iff.mp single
    cases same
    rfl
  · split at single
    · cases single
      rfl
    · contradiction
  all_goals first | contradiction | (cases single; rfl)

section Pieces

variable {σ : Type} {m : Machine σ} {g g₁ g₂ : Scope} {out : VarRef} {e : Expr} {es : List Expr}
  {code rest : Bytecode} {instr : Instruction}

private theorem runs_plain {before after whole : Bytecode} (plain : instr.isControl = false)
    (split : whole = before ++ instr :: after) (s : σ) :
    m.Runs whole (spanOf before) s [(spanOf before, instr)] (spanOf (before ++ [instr])) (m.act instr s) := by
  have run := m.runs_one split s
  rw [m.next_plain plain] at run
  rw [spanOf_append]
  exact run

private theorem ordinary_one (plain : instr.isControl = false) (position : ℕ) :
    ordinary [(position, instr)] = [(position, instr)] := by
  simp [ordinary, not_jump plain]

/-- Pieces behind each other. -/
theorem Follows.append {first second whole : Piece} (firstFollows : Follows m g₁ first code)
    (secondFollows : Follows m g₂ second rest)
    (joins : ∀ position s s₁ s₂ xs ys, Executes m g₁ first position s xs s₁ →
      Executes m g₂ second (position + spanOf code) s₁ ys s₂ →
      Executes m g whole position s (xs ++ ys) s₂) : Follows m g whole (code ++ rest) := by
  intro before after s
  obtain ⟨xs, s₁, firstExecutes, firstRuns⟩ := firstFollows before (rest ++ after) s
  obtain ⟨ys, s₂, secondExecutes, secondRuns⟩ := secondFollows (before ++ code) after s₁
  rw [spanOf_append] at secondExecutes
  refine ⟨xs ++ ys, s₂, ?_, ?_⟩
  · rw [ordinary_append]
    exact joins _ _ _ _ _ _ firstExecutes secondExecutes
  · simp only [List.append_assoc] at firstRuns secondRuns ⊢
    exact firstRuns.append secondRuns

private theorem follows_one (plain : instr.isControl = false) {piece : Piece}
    (executes : ∀ position s, Executes m g piece position s [(position, instr)] (m.act instr s)) :
    Follows m g piece [instr] := by
  intro before after s
  refine ⟨[(spanOf before, instr)], m.act instr s, ?_, runs_plain plain (List.append_cons ..).symm s⟩
  rw [ordinary_one plain]
  exact executes _ _

theorem follows_leaf (single : leafInstr g out e = some (instr, g₁)) : Follows m g (.expr out e) [instr] :=
  follows_one (leafInstr_plain single) fun _ _ => .leaf single

/-- Whatever is generated for an expression follows it. -/
def AllFollow (m : Machine σ) (e : Expr) : Prop :=
  ∀ g out code g', generateExpr g out e = .ok (code, g') → Follows m g (.expr out e) code

private theorem follows_nil {piece : Piece} (executes : ∀ position s, Executes m g piece position s [] s) :
    Follows m g piece [] := by
  intro before after s
  refine ⟨[], s, executes _ _, ?_⟩
  rw [List.append_nil]
  exact .done _ _

private theorem follows_args (follow : ∀ e ∈ es, AllFollow m e) (generated : generateArgs g es = .ok (code, g₁)) :
    Follows m g (.args es) code := by
  induction es generalizing g code with
  | nil =>
    cases generated
    exact follows_nil fun _ _ => .argsNil
  | cons e es ih =>
    simp only [generateArgs, Except.bind_eq_ok, Prod.exists, Except.pure_eq_ok, Prod.mk.injEq] at generated
    obtain ⟨argOut, g₂, allocated, first, g₃, head, rest, g₄, tail, rfl, rfl⟩ := generated
    rw [List.forall_mem_cons] at follow
    exact (follow.1 _ _ _ _ head).append (ih follow.2 tail) fun _ _ _ _ _ _ => .argsCons allocated head

private theorem follows_exprs (follow : ∀ e ∈ es, AllFollow m e) (generated : generateExprs g out es = .ok (code, g₁)) :
    Follows m g (.exprs out es) code := by
  induction es generalizing g code with
  | nil =>
    cases generated
    exact follows_nil fun _ _ => .exprsNil
  | cons e es ih =>
    simp only [generateExprs, Except.bind_eq_ok, Prod.exists, Except.pure_eq_ok, Prod.mk.injEq] at generated
    obtain ⟨first, g₂, head, rest, g₃, tail, rfl, rfl⟩ := generated
    rw [List.forall_mem_cons] at follow
    exact (follow.1 _ _ _ _ head).append (ih follow.2 tail) fun _ _ _ _ _ _ => .exprsCons head

theorem follows_block (follow : ∀ e ∈ es, AllFollow m e) (generated : generateBlock g out es = .ok (code, g₁)) :
    Follows m g (.block out es) code := by
  cases es with
  | nil =>
    cases generated
    exact follows_one rfl fun _ _ => .blockNil
  | cons e es =>
    simp only [generateBlock, Except.bind_eq_ok, Prod.exists, Except.pure_eq_ok, Prod.mk.injEq] at generated
    obtain ⟨first, g₂, head, rest, g₃, tail, rfl, rfl⟩ := generated
    rw [List.forall_mem_cons] at follow
    exact (follow.1 _ _ _ _ head).append (follows_exprs follow.2 tail) fun _ _ _ _ _ _ => .blockCons head

theorem follows_operation (operands : e.operandExprs = some es) (follow : ∀ e ∈ es, AllFollow m e)
    {locations : List VarRef} {g₃ g₄ : Scope} (evaluated : generateArgs g es = .ok (code, g₁))
    (popped : g₁.argLocations es = .ok (locations, g₃))
    (finished : finishOperation g₃ out locations e = .ok (instr, g₄)) :
    Follows m g (.expr out e) (code ++ [instr]) := by
  intro before after s
  have plain := finishOperation_plain finished
  obtain ⟨visited, s₁, executes, runs⟩ := follows_args follow evaluated before ([instr] ++ after) s
  have last : m.Runs (before ++ code ++ instr :: after) (spanOf (before ++ code)) s₁
      [(spanOf (before ++ code), instr)] (spanOf (before ++ code ++ [instr])) (m.act instr s₁) :=
    runs_plain plain rfl s₁
  refine ⟨visited ++ [(spanOf (before ++ code), instr)], m.act instr s₁, ?_, ?_⟩
  · rw [ordinary_append, ordinary_one plain, spanOf_append]
    exact .operation operands evaluated popped finished executes
  · simp only [List.append_assoc, List.singleton_append] at runs last ⊢
    exact runs.append last

private theorem follows_binding {var : VarRef} {left : Name} {right : Expr} (follow : AllFollow m right)
    (allocated : g.push = .ok (var, g₁)) (generated : generateExpr g₁ var right = .ok (code, g₂)) :
    Follows m g (.expr out (.let left right)) code := by
  intro before after s
  obtain ⟨visited, s', executes, runs⟩ := follow _ _ _ _ generated before after s
  exact ⟨visited, s', .binding allocated executes, runs⟩

private theorem follows_closure {params : List Name} {body : List Expr} {jump arity size : UInt8} {upvals : List VarRef}
    (generated : generateExpr g out (.anonFn params body) = .ok (.anonFn out jump arity upvals :: code, g₁))
    (sized : byteSizeOf code = .ok size) (jumped : checkedAdd size 1 = .ok jump) :
    Follows m g (.expr out (.anonFn params body)) (.anonFn out jump arity upvals :: code) := by
  intro before after s
  have skip : jump.toNat = spanOf code + 1 := (checkedAdd_ok jumped).trans (congrArg (· + 1) (spanOf_eq sized))
  have run := @Machine.runs_one σ m _ before (code ++ after) (.anonFn out jump arity upvals) rfl s
  have stop : spanOf before + 4 + (UInt8.ofNat upvals.length).toNat + jump.toNat =
      spanOf (before ++ .anonFn out jump arity upvals :: code) := by
    rw [spanOf_append, spanOf_cons, skip, Instruction.span]
    omega
  have entry : spanOf before + 4 + (UInt8.ofNat upvals.length).toNat + 1 =
      spanOf before + spanOf [.anonFn out jump arity upvals] := by
    rw [spanOf_cons, Instruction.span, show spanOf [] = 0 from rfl]
    omega
  refine ⟨[(spanOf before, .anonFn out jump arity upvals)], _, .closure generated, ?_⟩
  rw [← stop, ← entry, List.append_assoc]
  exact run

/-- The jump at the end of an else side, which is there exactly when it has something to skip. -/
def Leaps (jumps thenBranch : Bytecode) : Prop :=
  jumps = [] ∧ thenBranch = [] ∨ thenBranch ≠ [] ∧ ∃ leap, jumps = [.jmp leap] ∧ leap.toNat = spanOf thenBranch + 1

/-- The two offsets of a branch lead behind the code that they skip. -/
theorem genBranchInto_offsets {reg : VarRef} {thenBranch elseBranch result : Bytecode}
    (joined : genBranchInto code reg thenBranch elseBranch = .ok result) :
    ∃ skip jumps, result = code ++ [.test reg skip] ++ elseBranch ++ jumps ++ thenBranch ∧
      skip.toNat = spanOf (elseBranch ++ jumps) + 1 ∧ Leaps jumps thenBranch := by
  obtain ⟨thenSize, sized, joined⟩ := Except.bind_eq_ok.mp joined
  have thenSpan := spanOf_eq sized
  by_cases nonempty : 0 < thenSize
  · simp only [if_pos nonempty, Except.bind_eq_ok, Except.pure_eq_ok] at joined
    obtain ⟨leap, jumped, closed, rfl, elseSize, elseSized, skip, skipped, rfl⟩ := joined
    refine ⟨skip, [.jmp leap], by simp, ?_, .inr ⟨?_, leap, rfl, ?_⟩⟩
    · rw [checkedAdd_ok skipped, spanOf_eq elseSized]
      rfl
    · rintro rfl
      cases sized
      exact absurd nonempty (by decide)
    · rw [checkedAdd_ok jumped, thenSpan]
      rfl
  · simp only [if_neg nonempty, Except.bind_eq_ok, Except.pure_eq_ok] at joined
    obtain ⟨closed, rfl, elseSize, elseSized, skip, skipped, rfl⟩ := joined
    refine ⟨skip, [], by simp, ?_, .inl ⟨rfl, ?_⟩⟩
    · rw [checkedAdd_ok skipped, spanOf_eq elseSized, List.append_nil]
      rfl
    · cases thenBranch with
      | nil => rfl
      | cons instr thenBranch =>
        have positive := span_pos instr
        rw [spanOf_cons] at thenSpan
        have none : thenSize.toNat = 0 := Nat.le_zero.mp (UInt8.le_iff_toNat_le.mp (UInt8.not_lt.mp nonempty))
        omega

section Sides

variable {reg : VarRef} {skip : UInt8} {thenBranch elseBranch jumps before after whole : Bytecode} {s : σ}

private theorem runs_truthy (split : whole = before ++ .test reg skip :: (elseBranch ++ jumps ++ after))
    (skips : skip.toNat = spanOf (elseBranch ++ jumps) + 1) (truthy : m.truthy s reg = true) :
    m.Runs whole (spanOf before) s [(spanOf before, .test reg skip)]
      (spanOf (before ++ [.test reg skip] ++ elseBranch ++ jumps)) s := by
  have run := m.runs_one split s
  have stop : spanOf before + 2 + skip.toNat = spanOf (before ++ [.test reg skip] ++ elseBranch ++ jumps) := by
    simp only [skips, spanOf_append, show spanOf [.test reg skip] = 3 from rfl]
    omega
  rwa [Machine.next, if_pos truthy, stop] at run

private theorem runs_falsey (split : whole = before ++ .test reg skip :: after) (falsey : m.truthy s reg = false) :
    m.Runs whole (spanOf before) s [(spanOf before, .test reg skip)] (spanOf (before ++ [.test reg skip])) s := by
  have run := m.runs_one split s
  rw [Machine.next, if_neg (by rw [falsey]; decide)] at run
  rw [spanOf_append]
  exact run

/-- Behind the else side the then side is skipped. -/
private theorem runs_leap (split : whole = before ++ jumps ++ thenBranch ++ after)
    (leaps : Leaps jumps thenBranch) (s : σ) :
    ∃ visited, ordinary visited = [] ∧
      m.Runs whole (spanOf before) s visited (spanOf (before ++ jumps ++ thenBranch)) s := by
  obtain ⟨rfl, rfl⟩ | ⟨-, leap, rfl, leaps⟩ := leaps
  · refine ⟨[], rfl, ?_⟩
    rw [List.append_nil, List.append_nil]
    exact .done _ _
  · have run := @Machine.runs_one σ m whole before (thenBranch ++ after) (.jmp leap) (by simp [split]) s
    have stop : spanOf before + 1 + leap.toNat = spanOf (before ++ [.jmp leap] ++ thenBranch) := by
      rw [leaps, spanOf_append, spanOf_append, show spanOf [.jmp leap] = 2 from rfl]
      omega
    rw [Machine.next, stop] at run
    exact ⟨_, rfl, run⟩

variable {front result : Bytecode} {s₁ s₂ : σ} {visited : List (ℕ × Instruction)} {stop : ℕ}

/-- From the test through the then side to the end of the branch. -/
theorem runs_then (split : result = front ++ [.test reg skip] ++ elseBranch ++ jumps ++ thenBranch)
    (skips : skip.toNat = spanOf (elseBranch ++ jumps) + 1) (truthy : m.truthy s₁ reg = true)
    (runs : m.Runs (before ++ (front ++ [.test reg skip] ++ elseBranch ++ jumps) ++ thenBranch ++ after)
      (spanOf (before ++ (front ++ [.test reg skip] ++ elseBranch ++ jumps))) s₁ visited stop s₂) :
    ∃ all, ordinary all = ordinary visited ∧
      m.Runs (before ++ result ++ after) (spanOf (before ++ front)) s₁ all stop s₂ := by
  have tested := @runs_truthy σ m reg skip elseBranch jumps (before ++ front) (thenBranch ++ after)
    (before ++ result ++ after) s₁ (by simp [split]) skips truthy
  have same : before ++ front ++ [.test reg skip] ++ elseBranch ++ jumps =
      before ++ (front ++ [.test reg skip] ++ elseBranch ++ jumps) := by simp
  have wholes : before ++ (front ++ [.test reg skip] ++ elseBranch ++ jumps) ++ thenBranch ++ after =
      before ++ result ++ after := by simp [split]
  rw [same] at tested
  rw [wholes] at runs
  refine ⟨_, ?_, tested.append runs⟩
  rfl

/-- From the test through the else side to the end of the branch. -/
theorem runs_else (split : result = front ++ [.test reg skip] ++ elseBranch ++ jumps ++ thenBranch)
    (leaps : Leaps jumps thenBranch)
    (falsey : m.truthy s₁ reg = false)
    (runs : m.Runs (before ++ (front ++ [.test reg skip]) ++ elseBranch ++ (jumps ++ thenBranch ++ after))
      (spanOf (before ++ (front ++ [.test reg skip]))) s₁ visited
      (spanOf (before ++ (front ++ [.test reg skip]) ++ elseBranch)) s₂) :
    ∃ all, ordinary all = ordinary visited ∧
      m.Runs (before ++ result ++ after) (spanOf (before ++ front)) s₁ all (spanOf (before ++ result)) s₂ := by
  have tested := @runs_falsey σ m reg skip (before ++ front) (elseBranch ++ jumps ++ thenBranch ++ after)
    (before ++ result ++ after) s₁ (by simp [split]) falsey
  obtain ⟨leapt, none, last⟩ := @runs_leap σ m thenBranch jumps (before ++ (front ++ [.test reg skip]) ++ elseBranch) after
    (before ++ result ++ after) (by simp [split]) leaps s₂
  have wholes : before ++ (front ++ [.test reg skip]) ++ elseBranch ++ (jumps ++ thenBranch ++ after) =
      before ++ result ++ after := by simp [split]
  have ends : before ++ (front ++ [.test reg skip]) ++ elseBranch ++ jumps ++ thenBranch = before ++ result := by
    simp [split]
  have same : before ++ front ++ [.test reg skip] = before ++ (front ++ [.test reg skip]) := List.append_assoc ..
  rw [same] at tested
  rw [wholes] at runs
  rw [ends] at last
  refine ⟨_, ?_, tested.append (runs.append last)⟩
  rw [ordinary_append, ordinary_append, none, List.append_nil]
  rfl

end Sides

/-- The right side of `&&` or `||` runs where it is needed and nothing runs in its place. -/
private theorem follows_shortCircuit {module : Option Name} {name : Name} {left right : Expr} {others : List Expr}
    {leftCode rightCode : Bytecode} (named : IsShortCircuit name) (leftFollows : AllFollow m left)
    (rightFollows : AllFollow m right) (leftGenerated : generateExpr g out left = .ok (leftCode, g₁))
    (rightGenerated : generateExpr g₁ out right = .ok (rightCode, g₂))
    (joined : name = bytes "&&" ∧ genBranchInto leftCode out rightCode [] = .ok code ∨
      name = bytes "||" ∧ genBranchInto leftCode out [] rightCode = .ok code)
    (generated : generateExpr g out (.apply module name (left :: right :: others)) = .ok (code, g₂)) :
    Follows m g (.expr out (.apply module name (left :: right :: others))) code := by
  intro before after s
  obtain ⟨rfl, joined⟩ | ⟨rfl, joined⟩ := joined
  · obtain ⟨skip, jumps, split, skips, leaps⟩ := genBranchInto_offsets joined
    obtain ⟨xs, s₁, leftExecutes, leftRuns⟩ :=
      leftFollows _ _ _ _ leftGenerated before ([.test out skip] ++ [] ++ jumps ++ rightCode ++ after) s
    have wholes : before ++ leftCode ++ ([.test out skip] ++ [] ++ jumps ++ rightCode ++ after) =
        before ++ code ++ after := by simp [split]
    rw [wholes] at leftRuns
    cases truth : m.truthy s₁ out with
    | true =>
      obtain ⟨ys, s₂, rightExecutes, rightRuns⟩ := rightFollows _ _ _ _ rightGenerated
        (before ++ (leftCode ++ [.test out skip] ++ [] ++ jumps)) after s₁
      obtain ⟨all, same, runs⟩ := runs_then split skips truth rightRuns
      have ends : before ++ (leftCode ++ [.test out skip] ++ [] ++ jumps) ++ rightCode = before ++ code := by
        simp [split]
      rw [ends] at runs
      rw [spanOf_append] at rightExecutes
      refine ⟨xs ++ all, s₂, ?_, leftRuns.append runs⟩
      rw [ordinary_append, same]
      exact .right named leftGenerated rightGenerated (split ▸ generated) leftExecutes truth rightExecutes
    | false =>
      obtain ⟨all, same, runs⟩ := @runs_else σ m out skip rightCode [] jumps before after leftCode code s₁ s₁ []
        split leaps truth (by rw [List.append_nil]; exact .done _ _)
      refine ⟨xs ++ all, s₁, ?_, leftRuns.append runs⟩
      rw [ordinary_append, same, show ordinary [] = [] from rfl, List.append_nil]
      exact .leftOnly named leftExecutes truth
  · obtain ⟨skip, jumps, split, skips, leaps⟩ := genBranchInto_offsets joined
    obtain rfl : jumps = [] := leaps.elim And.left fun impossible => absurd rfl impossible.1
    obtain ⟨xs, s₁, leftExecutes, leftRuns⟩ :=
      leftFollows _ _ _ _ leftGenerated before ([.test out skip] ++ rightCode ++ after) s
    have wholes : before ++ leftCode ++ ([.test out skip] ++ rightCode ++ after) = before ++ code ++ after := by
      simp [split]
    rw [wholes] at leftRuns
    cases truth : m.truthy s₁ out with
    | true =>
      obtain ⟨all, same, runs⟩ := @runs_then σ m out skip [] rightCode [] before after leftCode code s₁ s₁ [] _
        split skips truth (.done _ _)
      have ends : before ++ (leftCode ++ [.test out skip] ++ rightCode ++ []) = before ++ code := by simp [split]
      rw [ends] at runs
      refine ⟨xs ++ all, s₁, ?_, leftRuns.append runs⟩
      rw [ordinary_append, same, show ordinary [] = [] from rfl, List.append_nil]
      exact .leftOnly named leftExecutes (by rw [truth]; rfl)
    | false =>
      obtain ⟨ys, s₂, rightExecutes, rightRuns⟩ := rightFollows _ _ _ _ rightGenerated
        (before ++ (leftCode ++ [.test out skip])) ([] ++ [] ++ after) s₁
      obtain ⟨all, same, runs⟩ := runs_else split leaps truth rightRuns
      rw [spanOf_append] at rightExecutes
      have joined : generateExpr g out (.apply module (bytes "||") (left :: right :: others)) =
          .ok (leftCode ++ [.test out skip] ++ rightCode, g₂) := by
        rw [generated, split, List.append_nil, List.append_nil]
      refine ⟨xs ++ all, s₂, ?_, leftRuns.append runs⟩
      rw [ordinary_append, same]
      exact .right named leftGenerated rightGenerated joined leftExecutes (by rw [truth]; rfl) rightExecutes

private theorem follows_branch {conditionOut : VarRef} {condition : Expr} {body elseBody : List Expr} {g₃ g₄ : Scope}
    {thenCode elseCode conditionCode : Bytecode} (thenFollows : ∀ e ∈ body, AllFollow m e)
    (elseFollows : ∀ e ∈ elseBody, AllFollow m e) (conditionFollows : AllFollow m condition)
    (thenGenerated : generateBlock g out body = .ok (thenCode, g₁))
    (elseGenerated : generateBlock g₁ out elseBody = .ok (elseCode, g₂)) (allocated : g₂.push = .ok (conditionOut, g₃))
    (conditionGenerated : generateExpr g₃ conditionOut condition = .ok (conditionCode, g₄))
    (joined : genBranchInto conditionCode conditionOut thenCode elseCode = .ok code)
    (generated : generateExpr g out (.if condition body elseBody) = .ok (code, g₄)) :
    Follows m g (.expr out (.if condition body elseBody)) code := by
  obtain ⟨skip, jumps, split, skips, leaps⟩ := genBranchInto_offsets joined
  intro before after s
  obtain ⟨xs, s₁, conditionExecutes, conditionRuns⟩ := conditionFollows _ _ _ _ conditionGenerated before
    ([.test conditionOut skip] ++ elseCode ++ jumps ++ thenCode ++ after) s
  have wholes : before ++ conditionCode ++ ([.test conditionOut skip] ++ elseCode ++ jumps ++ thenCode ++ after) =
      before ++ code ++ after := by simp [split]
  rw [wholes] at conditionRuns
  cases truth : m.truthy s₁ conditionOut with
  | true =>
    obtain ⟨ys, s₂, branchExecutes, branchRuns⟩ := follows_block thenFollows thenGenerated
      (before ++ (conditionCode ++ [.test conditionOut skip] ++ elseCode ++ jumps)) after s₁
    obtain ⟨all, same, runs⟩ := runs_then split skips truth branchRuns
    have ends : before ++ (conditionCode ++ [.test conditionOut skip] ++ elseCode ++ jumps) ++ thenCode =
        before ++ code := by simp [split]
    rw [ends] at runs
    rw [spanOf_append] at branchExecutes
    refine ⟨xs ++ all, s₂, ?_, conditionRuns.append runs⟩
    rw [ordinary_append, same]
    exact .thenBranch thenGenerated elseGenerated allocated (split ▸ generated) conditionExecutes truth branchExecutes
  | false =>
    obtain ⟨ys, s₂, branchExecutes, branchRuns⟩ := follows_block elseFollows elseGenerated
      (before ++ (conditionCode ++ [.test conditionOut skip])) (jumps ++ thenCode ++ after) s₁
    obtain ⟨all, same, runs⟩ := runs_else split leaps truth branchRuns
    rw [spanOf_append] at branchExecutes
    refine ⟨xs ++ all, s₂, ?_, conditionRuns.append runs⟩
    rw [ordinary_append, same]
    have whole : generateExpr g out (.if condition body elseBody) =
        .ok (conditionCode ++ [.test conditionOut skip] ++ elseCode ++ (jumps ++ thenCode), g₄) := by
      rw [generated, split, List.append_assoc (_ ++ _ ++ _)]
    exact .elseBranch thenGenerated elseGenerated allocated conditionGenerated whole conditionExecutes truth
      branchExecutes

theorem allFollow (m : Machine σ) (e : Expr) : AllFollow m e := by
  induction e with
  | int value =>
    intro g out code g' generated
    simp only [generateExpr] at generated
    split at generated
    · next val parsed =>
      cases generated
      exact follows_leaf (show leafInstr g out (.int value) = some (_, g) by simp [leafInstr, parsed])
    · contradiction
  | ident name =>
    intro g out code g' generated
    simp only [generateExpr] at generated
    split at generated
    · next reg g₁ found =>
      cases generated
      exact follows_leaf (show leafInstr g out (.ident name) = some (_, g') by simp [leafInstr, found])
    · contradiction
  | true | false | nil | str | capture =>
    intro g out code g' generated
    cases generated
    exact follows_leaf rfl
  | let_ left right follow =>
    intro g out code g' generated
    simp only [generateExpr] at generated
    split at generated
    · contradiction
    · simp only [Except.bind_eq_ok, Prod.exists, Except.pure_eq_ok, Prod.mk.injEq] at generated
      obtain ⟨var, g₁, allocated, bound, g₂, value, rfl, rfl⟩ := generated
      exact follows_binding follow allocated value
  | apply module name args follow =>
    intro g out code g' generated
    have decided : bytes "||" ≠ bytes "&&" := by decide
    by_cases named : IsShortCircuit name
    · rcases args with _ | ⟨left, _ | ⟨right, rest⟩⟩
      · rcases named with rfl | rfl <;> simp [generateExpr, decided] at generated
      · rcases named with rfl | rfl <;> simp [generateExpr, decided] at generated
      · have whole := generated
        have leftFollows := follow left (by simp)
        have rightFollows := follow right (by simp)
        rcases named with rfl | rfl
        · simp only [generateExpr, if_true, Except.bind_eq_ok, Prod.exists, Except.pure_eq_ok,
            Prod.mk.injEq] at generated
          obtain ⟨leftCode, g₁, first, rightCode, g₂, second, result, joined, rfl, rfl⟩ := generated
          exact follows_shortCircuit (.inl rfl) leftFollows rightFollows first second (.inl ⟨rfl, joined⟩) whole
        · simp only [generateExpr, decided, if_false, if_true, Except.bind_eq_ok, Prod.exists,
            Except.pure_eq_ok, Prod.mk.injEq] at generated
          obtain ⟨leftCode, g₁, first, rightCode, g₂, second, result, joined, rfl, rfl⟩ := generated
          exact follows_shortCircuit (.inr rfl) leftFollows rightFollows first second (.inr ⟨rfl, joined⟩) whole
    · obtain ⟨notAnd, notOr⟩ : name ≠ bytes "&&" ∧ name ≠ bytes "||" := not_or.mp named
      rw [generateExpr.eq_def] at generated
      simp only [notAnd, notOr, if_false, Except.bind_eq_ok, Prod.exists, Except.pure_eq_ok, Prod.mk.injEq]
        at generated
      obtain ⟨res, g₁, evaluated, locations, g₂, popped, instr, g₃, finished, rfl, rfl⟩ := generated
      exact follows_operation (by simp [Expr.operandExprs, named]) follow evaluated popped finished
  | if_ condition body elseBody conditionFollows thenFollows elseFollows =>
    intro g out code g' generated
    have whole := generated
    simp only [generateExpr, Except.bind_eq_ok, Prod.exists, Except.pure_eq_ok, Prod.mk.injEq] at generated
    obtain ⟨thenCode, g₁, thenOk, elseCode, g₂, elseOk, conditionOut, g₃, allocated, res, g₄, conditionOk, result,
      joined, rfl, rfl⟩ := generated
    exact follows_branch thenFollows elseFollows conditionFollows thenOk elseOk allocated conditionOk joined whole
  | tuple elems follow =>
    intro g out code g' generated
    simp only [generateExpr, Except.bind_eq_ok, Prod.exists, Except.pure_eq_ok, Prod.mk.injEq] at generated
    obtain ⟨res, g₁, evaluated, locations, g₂, popped, rfl, rfl⟩ := generated
    exact follows_operation rfl follow evaluated popped rfl
  | list elems follow =>
    intro g out code g' generated
    simp only [generateExpr, Except.bind_eq_ok, Prod.exists, Except.pure_eq_ok, Prod.mk.injEq] at generated
    obtain ⟨res, g₁, evaluated, locations, g₂, popped, rfl, rfl⟩ := generated
    exact follows_operation rfl follow evaluated popped rfl
  | anonFn params body follow =>
    intro g out code g' generated
    have whole := generated
    simp only [generateExpr, Except.bind_eq_ok, Prod.exists, Except.pure_eq_ok, Prod.mk.injEq] at generated
    obtain ⟨child, entered, inner, child', block, size, sized, jump, jumped, rfl, rfl⟩ := generated
    exact follows_closure whole sized jumped

/-- Code that was generated for a piece of the source, embedded anywhere, executes what the source says of
the piece and goes on behind itself. -/
theorem control_followsSource (m : Machine σ) {g g' : Scope} {piece : Piece} {code : Bytecode}
    (generated : generatePiece g piece = .ok (code, g')) (before after : Bytecode) (s : σ) :
    ∃ visited s', Executes m g piece (spanOf before) s (ordinary visited) s' ∧
      m.Runs (before ++ code ++ after) (spanOf before) s visited (spanOf (before ++ code)) s' := by
  cases piece with
  | expr out e => exact allFollow m e g out code g' generated before after s
  | args es => exact follows_args (fun e _ => allFollow m e) generated before after s
  | block out es => exact follows_block (fun e _ => allFollow m e) generated before after s
  | exprs out es => exact follows_exprs (fun e _ => allFollow m e) generated before after s

end Pieces

/-- Registers that remember whether they hold a truthy value. -/
def truthMachine : Machine (VarRef → Bool) where
  act
    | .storeFalse dst, s | .storeNil dst, s => fun reg => if reg = dst then false else s reg
    | instr, s => fun reg => if instr.writes = some reg then true else s reg
  create dst _ _ s := fun reg => if reg = dst then true else s reg
  truthy s reg := s reg

def topScope : Scope where
  self := { varCount := 0, moduleName := [], functionName := [], env := [], upvals := [] }
  parents := []

/-- `if nil { 1 } else { 2 }` behind another instruction. -/
theorem control_followsSource_else :
    ∃ visited s', Executes truthMachine topScope
        (.expr (.register 0) (.if .nil [.int (bytes "1")] [.int (bytes "2")])) 2 (fun _ => true) (ordinary visited) s' ∧
      truthMachine.Runs ([.print (.register 0)] ++ [.storeNil (.register 1), .test (.register 1) 7,
          .storeInt (.register 0) 2, .jmp 5, .storeInt (.register 0) 1] ++ [.return]) 2
        (fun _ => true) visited 17 s' := by
  have generated : generatePiece topScope (.expr (.register 0) (.if .nil [.int (bytes "1")] [.int (bytes "2")])) =
      .ok ([.storeNil (.register 1), .test (.register 1) 7, .storeInt (.register 0) 2, .jmp 5,
        .storeInt (.register 0) 1], { topScope with self := { topScope.self with varCount := 1 } }) := by
    rfl
  exact control_followsSource truthMachine generated [.print (.register 0)] [.return] fun _ => true

section Handlers

open Owl.Runtime Owl.Format

/-- A step of the virtual machine through a test, a jump or the creation of a closure goes where the rules
of a machine say. -/
theorem step_next {σ World : Type} {host : Host World} {vm vm' : Vm World} {m : Machine σ} {s : σ}
    {instr : Instruction} {id : UInt8} (control : instr.isControl = true) (counted : Counted instr)
    (holds : Holds vm ((layout instr).loaded id)) (run : step host vm = .ok ((), vm'))
    (agree : ∀ reg, m.truthy s reg = true ↔ Taken vm reg) : vm'.ip = (m.next vm.ip s instr).1 := by
  have goes := goesOn_width counted holds run
  cases instr
  case test reg jump =>
    obtain ⟨passed, taken⟩ := goes
    by_cases truth : m.truthy s reg = true
    · have ip := taken ((agree reg).mp truth)
      rw [Machine.next, if_pos truth]
      simp only [layout, Layout.width_plain, List.length_cons, List.length_nil] at ip
      omega
    · have ip := passed (mt (agree reg).mpr truth)
      rw [Machine.next, if_neg truth, ip]
      rfl
  case jmp loc =>
    change vm'.ip + 1 = _ at goes
    simp only [layout, Layout.width_plain, List.length_cons, List.length_nil] at goes
    change vm'.ip = vm.ip + 1 + loc.toNat
    omega
  case anonFn dst jump arity upvals =>
    have few : upvals.length < 256 := counted
    have ip := goes.1
    rw [layout, Layout.width_counted, operands, List.length_map] at ip
    change vm'.ip = vm.ip + 4 + (UInt8.ofNat upvals.length).toNat + jump.toNat
    rw [ofNat_toNat_of_lt few]
    simp only [List.length_cons, List.length_nil] at ip
    omega
  all_goals contradiction

end Handlers

end Owl.Compiler
