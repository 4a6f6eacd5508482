import Owl.Soundness.ControlFlow

/-! # Paths through generated code

A path goes from instruction to instruction, whichever way its tests go. For one register, a piece of code does
two things to the paths through it: it may read the register before it writes it, and it may let a path through
that has not written it. Both compose along the layout of the code.
-/

namespace Owl.Compiler

/-- The references that the handler of an instruction reads. `Exit` takes its operand byte itself for the exit
code and `Return` hands over register 0. -/
def Instruction.reads : Instruction → List VarRef
  | .exit _ => []
  | .return => [.register 0]
  | instr => instr.operands ++ instr.sources

/-- Where control goes from an instruction at a position: a test has two ways on, `Exit` and `Return` have none. -/
def Instruction.targets (position : ℕ) : Instruction → List ℕ
  | .exit _ | .return => []
  | .test _ jump => [position + 2 + jump.toNat, position + 2 + 1]
  | .jmp loc => [position + 1 + loc.toNat]
  | .anonFn _ jump _ upvals => [position + 4 + (UInt8.ofNat upvals.length).toNat + jump.toNat]
  | instr => [position + instr.span]

/-- Control goes on behind the instruction and nowhere else. -/
def Instruction.Straight (instr : Instruction) : Prop := ∀ position, instr.targets position = [position + instr.span]

/-- The instructions of a path from a position, up to any point of it. -/
inductive Path (code : Bytecode) : ℕ → List Instruction → Prop
  | last {position : ℕ} {instr : Instruction} (found : instrAt code position = some instr) :
      Path code position [instr]
  | step {position next : ℕ} {instr : Instruction} {visited : List Instruction}
      (found : instrAt code position = some instr) (goes : next ∈ instr.targets position)
      (rest : Path code next visited) : Path code position (instr :: visited)

/-- Some path from a position reads a register before it writes it. -/
inductive Exposed (code : Bytecode) (r : UInt8) : ℕ → Prop
  | reads {position : ℕ} {instr : Instruction} (found : instrAt code position = some instr)
      (read : .register r ∈ instr.reads) : Exposed code r position
  | passes {position next : ℕ} {instr : Instruction} (found : instrAt code position = some instr)
      (kept : instr.writes ≠ some (.register r)) (goes : next ∈ instr.targets position)
      (later : Exposed code r next) : Exposed code r position

/-- Paths may stop early. -/
theorem Path.cut {code : Bytecode} {position : ℕ} {visited later : List Instruction} (some' : visited ≠ [])
    (path : Path code position (visited ++ later)) : Path code position visited := by
  induction visited generalizing position with
  | nil => contradiction
  | cons instr visited ih =>
    generalize whole : instr :: visited ++ later = all at path
    cases path with
    | last found =>
      obtain ⟨rfl, none⟩ := List.cons.inj whole
      obtain ⟨rfl, -⟩ := List.append_eq_nil_iff.mp none
      exact .last found
    | step found goes rest =>
      obtain ⟨rfl, rfl⟩ := List.cons.inj whole
      cases visited with
      | nil => exact .last found
      | cons next visited => exact .step found goes (ih (List.cons_ne_nil _ _) rest)

section Exposed

variable {code before after : Bytecode} {r : UInt8} {position : ℕ} {instr : Instruction}

/-- The register is read at the end of a path that has not written it. -/
theorem exposed_iff_path : Exposed code r position ↔ ∃ earlier instr, Path code position (earlier ++ [instr]) ∧
    .register r ∈ instr.reads ∧ ∀ before ∈ earlier, before.writes ≠ some (.register r) := by
  constructor
  · intro exposed
    induction exposed with
    | reads found read => exact ⟨[], _, .last found, read, List.forall_mem_nil _⟩
    | passes found kept goes _ ih =>
      obtain ⟨earlier, instr, path, read, unwritten⟩ := ih
      exact ⟨_ :: earlier, instr, .step found goes path, read, List.forall_mem_cons.mpr ⟨kept, unwritten⟩⟩
  · rintro ⟨earlier, instr, path, read, unwritten⟩
    induction earlier generalizing position with
    | nil =>
      rw [List.nil_append] at path
      obtain ⟨found⟩ | ⟨found, _, _⟩ := path
      · exact .reads found read
      · exact .reads found read
    | cons first earlier ih =>
      obtain ⟨kept, unwritten⟩ := List.forall_mem_cons.mp unwritten
      generalize whole : first :: earlier ++ [instr] = visited at path
      cases path with
      | last found => simp at whole
      | step found goes rest =>
        obtain ⟨rfl, rfl⟩ := List.cons.inj whole
        exact .passes found kept goes (ih rest unwritten)

theorem exposed_at (found : instrAt code position = some instr) : Exposed code r position ↔
    .register r ∈ instr.reads ∨
      instr.writes ≠ some (.register r) ∧ ∃ next ∈ instr.targets position, Exposed code r next := by
  constructor
  · intro exposed
    cases exposed with
    | reads same read =>
      cases found.symm.trans same
      exact .inl read
    | passes same kept goes later =>
      cases found.symm.trans same
      exact .inr ⟨kept, _, goes, later⟩
  · rintro (read | ⟨kept, next, goes, later⟩)
    · exact .reads found read
    · exact .passes found kept goes later

theorem exposed_instr (before : Bytecode) (instr : Instruction) (after : Bytecode) :
    Exposed (before ++ instr :: after) r (spanOf before) ↔ .register r ∈ instr.reads ∨
      instr.writes ≠ some (.register r) ∧
        ∃ next ∈ instr.targets (spanOf before), Exposed (before ++ instr :: after) r next :=
  exposed_at (instrAt_append before instr after)

end Exposed

/-- What a piece of code, wherever it stands, does to the paths through it: from its start a register may be read
first if the piece needs it, or if the piece spares it and it may be read first behind the piece. -/
def Passes (r : UInt8) (code : Bytecode) (needs spares : Bool) : Prop :=
  ∀ before after, Exposed (before ++ code ++ after) r (spanOf before) ↔
    needs = true ∨ spares = true ∧ Exposed (before ++ code ++ after) r (spanOf (before ++ code))

namespace Passes

variable {r : UInt8} {code first second whole : Bytecode} {needs needs' spares spares' : Bool} {instr : Instruction}

theorem at_split (passes : Passes r code needs spares) (before after : Bytecode)
    (split : whole = before ++ code ++ after) : Exposed whole r (spanOf before) ↔
      needs = true ∨ spares = true ∧ Exposed whole r (spanOf (before ++ code)) := split ▸ passes before after

theorem nil (r : UInt8) : Passes r [] false true := by
  intro before after
  simp

theorem append (left : Passes r first needs spares) (right : Passes r second needs' spares') :
    Passes r (first ++ second) (needs || spares && needs') (spares && spares') := by
  intro before after
  have head := left before (second ++ after)
  have tail := right (before ++ first) after
  simp only [List.append_assoc] at head tail ⊢
  rw [head, tail]
  simp only [Bool.or_eq_true, Bool.and_eq_true]
  grind

/-- An instruction that goes on behind itself. -/
theorem straight (straight : instr.Straight) : Passes r [instr] (decide (.register r ∈ instr.reads))
    (decide (instr.writes ≠ some (.register r))) := by
  intro before after
  have behind : spanOf before + instr.span = spanOf (before ++ [instr]) := (spanOf_append before [instr]).symm
  rw [List.append_assoc, List.singleton_append, exposed_instr, straight, behind]
  simp only [decide_eq_true_eq, List.mem_singleton, exists_eq_left]

/-- An instruction that nothing comes behind. -/
theorem stops (stops : ∀ position, instr.targets position = []) :
    Passes r [instr] (decide (.register r ∈ instr.reads)) false := by
  intro before after
  rw [List.append_assoc, List.singleton_append, exposed_instr, stops]
  simp

/-- A closure: its body stands behind the instruction, and control passes over it. -/
theorem closure {out : VarRef} {jump arity size : UInt8} {upvals : List VarRef} (sized : byteSizeOf code = .ok size)
    (jumped : checkedAdd size 1 = .ok jump) : Passes r (.anonFn out jump arity upvals :: code)
      (decide (.register r ∈ upvals)) (decide (out ≠ .register r)) := by
  intro before after
  have skip : jump.toNat = spanOf code + 1 := (checkedAdd_ok jumped).trans (congrArg (· + 1) (spanOf_eq sized))
  have stop : spanOf before + 4 + (UInt8.ofNat upvals.length).toNat + jump.toNat =
      spanOf (before ++ .anonFn out jump arity upvals :: code) := by
    rw [spanOf_append, spanOf_cons, skip, Instruction.span]
    omega
  have reads : (Instruction.anonFn out jump arity upvals).reads = upvals := rfl
  have writes : (Instruction.anonFn out jump arity upvals).writes = some out := rfl
  rw [List.append_assoc, List.cons_append, exposed_instr, reads, writes, Instruction.targets, stop]
  simp only [decide_eq_true_eq, List.mem_singleton, exists_eq_left, ne_eq, Option.some.injEq]

/-- The jump behind an else side takes control over the then side. -/
theorem leap {jumps thenBranch before after : Bytecode} (leaps : Leaps jumps thenBranch)
    (split : whole = before ++ jumps ++ thenBranch ++ after) :
    Exposed whole r (spanOf before) ↔ Exposed whole r (spanOf (before ++ jumps ++ thenBranch)) := by
  obtain ⟨rfl, rfl⟩ | ⟨-, leap, rfl, leaps⟩ := leaps
  · rw [List.append_nil, List.append_nil]
  · have stop : spanOf before + 1 + leap.toNat = spanOf (before ++ [.jmp leap] ++ thenBranch) := by
      rw [leaps, spanOf_append, spanOf_append, show spanOf [.jmp leap] = 2 from rfl]
      omega
    have found : instrAt whole (spanOf before) = some (.jmp leap) := by
      rw [split, List.append_assoc, List.append_assoc]
      exact instrAt_append ..
    have reads : (Instruction.jmp leap).reads = [] := rfl
    have writes : (Instruction.jmp leap).writes = none := rfl
    rw [← stop, exposed_at found, reads, writes, Instruction.targets]
    simp

/-- A test with its two sides. -/
theorem branch {reg : VarRef} {thenBranch elseBranch result : Bytecode} {thenNeeds thenSpares elseNeeds elseSpares : Bool}
    (joined : genBranchInto code reg thenBranch elseBranch = .ok result) (tested : Passes r code needs spares)
    (thenPasses : Passes r thenBranch thenNeeds thenSpares) (elsePasses : Passes r elseBranch elseNeeds elseSpares) :
    Passes r result (needs || spares && (decide (reg = .register r) || thenNeeds || elseNeeds))
      (spares && (thenSpares || elseSpares)) := by
  obtain ⟨skip, jumps, split, skips, leaps⟩ := genBranchInto_offsets joined
  intro before after
  generalize whole : before ++ result ++ after = all
  rw [split] at whole ⊢
  have start := tested.at_split before ([.test reg skip] ++ elseBranch ++ jumps ++ thenBranch ++ after)
    (by simp [← whole] : all = _)
  have falsey := elsePasses.at_split (before ++ code ++ [.test reg skip]) (jumps ++ thenBranch ++ after)
    (by simp [← whole] : all = _)
  have leapt := @leap r all jumps thenBranch (before ++ code ++ [.test reg skip] ++ elseBranch) after leaps
    (by simp [← whole])
  have truthy := thenPasses.at_split (before ++ code ++ [.test reg skip] ++ elseBranch ++ jumps) after
    (by simp [← whole] : all = _)
  have found : instrAt all (spanOf (before ++ code)) = some (.test reg skip) := by
    rw [← instrAt_append (before ++ code) (.test reg skip) (elseBranch ++ jumps ++ thenBranch ++ after), ← whole]
    simp
  have far : spanOf (before ++ code) + 2 + skip.toNat =
      spanOf (before ++ code ++ [.test reg skip] ++ elseBranch ++ jumps) := by
    simp only [skips, spanOf_append, show spanOf [.test reg skip] = 3 from rfl]
    omega
  have near : spanOf (before ++ code) + 2 + 1 = spanOf (before ++ code ++ [.test reg skip]) :=
    (spanOf_append (before ++ code) [.test reg skip]).symm
  have test : Exposed all r (spanOf (before ++ code)) ↔ reg = .register r ∨
      Exposed all r (spanOf (before ++ code ++ [.test reg skip] ++ elseBranch ++ jumps)) ∨
      Exposed all r (spanOf (before ++ code ++ [.test reg skip])) := by
    have reads : (Instruction.test reg skip).reads = [reg] := rfl
    have writes : (Instruction.test reg skip).writes = none := rfl
    rw [exposed_at found, reads, writes, Instruction.targets, far, near]
    simp [eq_comm]
  have stop : before ++ (code ++ [.test reg skip] ++ elseBranch ++ jumps ++ thenBranch) =
      before ++ code ++ [.test reg skip] ++ elseBranch ++ jumps ++ thenBranch := by simp
  rw [stop, start, test, truthy, falsey, leapt]
  generalize Exposed all r _ = behind
  simp only [Bool.or_eq_true, Bool.and_eq_true, decide_eq_true_eq, or_and_right, and_or_left, and_assoc, or_assoc]
  grind

end Passes

end Owl.Compiler
