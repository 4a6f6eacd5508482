import Owl.Proofs.Compiler.Operations
import Owl.Soundness.InstructionWidths

/-! # Integer arithmetic from source to machine

A tree of literals, additions and subtractions is generated into registers above the counter, emitted,
loaded and executed. The machine computes with the terms that its decoder makes of the literals, and these
are not always the literals: the encoder writes them in base 250, and the decoder reads them in base 256.
-/

namespace Owl.Format

open Owl.Compiler Owl.Runtime StateExcept

/-- Additions and subtractions of integer literals. -/
inductive Arith where
  | literal (digits : Bytes)
  | add (left right : Arith)
  | sub (left right : Arith)

namespace Arith

/-- The tree as an expression of the language. -/
def expr : Arith → Expr
  | literal digits => .int digits
  | add left right => .apply none (bytes "+") [left.expr, right.expr]
  | sub left right => .apply none (bytes "-") [left.expr, right.expr]

/-- The number that a literal denotes. -/
def number (digits : Bytes) : UInt16 := (parseU16 digits).getD 0

/-- The integer that the tree computes when its literals stand for the given ones. -/
def eval (literals : UInt16 → ℤ) : Arith → ℤ
  | literal digits => literals (number digits)
  | add left right => left.eval literals + right.eval literals
  | sub left right => left.eval literals - right.eval literals

def value (tree : Arith) : ℤ := tree.eval fun val => val.toNat

/-- By how much the decoder misses a literal. -/
def literalDrift (val : UInt16) : ℤ :=
  6 * (val.toNat / 250 : ℕ) - if 64000 ≤ val.toNat then 65536 else 0

def drift (tree : Arith) : ℤ := tree.eval literalDrift

/-- Registers above the counter that the code of the tree takes. -/
def depth : Arith → ℕ
  | literal _ => 0
  | add left right | sub left right => max (left.depth + 1) (right.depth + 2)

/-- The code of the tree from the register counter and the output register. -/
def code : Arith → UInt8 → UInt8 → Bytecode
  | literal digits, _, out => [.storeInt (.register out) (number digits)]
  | add left right, counter, out =>
      left.code (counter + 1) (counter + 1) ++ (right.code (counter + 2) (counter + 2) ++
        [.add (.register out) (.register (counter + 1)) (.register (counter + 2))])
  | sub left right, counter, out =>
      left.code (counter + 1) (counter + 1) ++ (right.code (counter + 2) (counter + 2) ++
        [.sub (.register out) (.register (counter + 1)) (.register (counter + 2))])

end Arith

/-- The generator with another register counter. -/
def counting (g : Scope) (varCount : UInt8) : Scope := { g with self := { g.self with varCount } }

@[simp] theorem counting_varCount (g : Scope) (varCount : UInt8) :
    (counting g varCount).self.varCount = varCount := rfl

@[simp] theorem counting_counting (g : Scope) (first second : UInt8) :
    counting (counting g first) second = counting g second := rfl

@[simp] theorem counting_self (g : Scope) : counting g g.self.varCount = g := rfl

/-- A pushed register is the next one. -/
private theorem push_eq_ok {g g' : Scope} {reg : VarRef} (success : g.push = .ok (reg, g')) :
    reg = .register (g.self.varCount + 1) ∧ g' = counting g (g.self.varCount + 1) ∧
      (g.self.varCount + 1).toNat = g.self.varCount.toNat + 1 := by
  obtain ⟨varCount, next, rfl, rfl⟩ := Scope.push_ok success
  have one : (1 : UInt8).toNat = 1 := rfl
  have small := varCount.toNat_lt
  have same : varCount = g.self.varCount + 1 := by
    rw [← UInt8.toNat_inj, UInt8.toNat_add]
    omega
  subst same
  exact ⟨rfl, rfl, next⟩

/-- Popping gives the newest register back. -/
private theorem pop_eq_ok {g g' : Scope} {reg : VarRef} (success : g.pop = .ok (reg, g')) :
    reg = .register g.self.varCount ∧ g' = counting g (g.self.varCount - 1) := by
  obtain ⟨_, subtracted, same⟩ := Except.bind_eq_ok.mp success
  cases same
  rw [checkedSub] at subtracted
  split at subtracted
  · cases subtracted
    exact ⟨rfl, rfl⟩
  · contradiction

/-- The code depends on the counter and the output register only, and the generator is as before. -/
def GeneratesFrom (e : Expr) (codeFrom : UInt8 → UInt8 → Bytecode) (depth : ℕ) : Prop :=
  ∀ g out code g', generateExpr g (.register out) e = .ok (code, g') →
    code = codeFrom g.self.varCount out ∧ g' = g ∧ g.self.varCount.toNat + depth < 256

/-- Both operands of an operation take the next register each, and give it back. -/
theorem GeneratesFrom.binary {name : Name} {instr : VarRef → VarRef → VarRef → Instruction} {left right : Expr}
    {leftCode rightCode : UInt8 → UInt8 → Bytecode} {leftDepth rightDepth : ℕ}
    (plain : ¬ IsShortCircuit name) (found : builtins.lookup name = some (binary instr))
    (first : GeneratesFrom left leftCode leftDepth) (second : GeneratesFrom right rightCode rightDepth) :
    GeneratesFrom (.apply none name [left, right])
      (fun counter out => leftCode (counter + 1) (counter + 1) ++ (rightCode (counter + 2) (counter + 2) ++
        [instr (.register out) (.register (counter + 1)) (.register (counter + 2))]))
      (max (leftDepth + 1) (rightDepth + 2)) := by
  intro g out code g' success
  rw [IsShortCircuit, not_or] at plain
  rw [generateExpr, if_neg plain.1, if_neg plain.2] at success
  simp only [generateArgs, Scope.argLocations, Scope.popEach, List.length_cons, List.length_nil, Scope.applyOp,
    found, Except.bind_eq_ok, Prod.exists, Except.pure_eq_ok, Prod.mk.injEq] at success
  obtain ⟨_, _, ⟨_, _, pushed₁, code₁, g₂, ran₁, _, _, ⟨_, _, pushed₂, code₂, g₄, ran₂, _, _, none, rfl, rfl⟩,
    rfl, rfl⟩, _, _, ⟨_, _, ⟨_, _, popped₂, _, _, ⟨_, _, popped₁, _, _, rest, rfl, rfl⟩, rfl, rfl⟩, rfl, rfl⟩,
    me, _, ⟨instruction, emitted, rfl, rfl⟩, rfl, rfl⟩ := success
  cases none
  cases rest
  obtain ⟨rfl, rfl, next₁⟩ := push_eq_ok pushed₁
  obtain ⟨rfl, rfl, fits₁⟩ := first _ _ _ _ ran₁
  obtain ⟨rfl, rfl, next₂⟩ := push_eq_ok pushed₂
  obtain ⟨rfl, rfl, fits₂⟩ := second _ _ _ _ ran₂
  obtain ⟨rfl, rfl⟩ := pop_eq_ok popped₂
  obtain ⟨rfl, rfl⟩ := pop_eq_ok popped₁
  cases emitted
  have two : g.self.varCount + 1 + 1 = g.self.varCount + 2 := by
    rw [UInt8.add_assoc]
    rfl
  have back : g.self.varCount + 2 - 1 = g.self.varCount + 1 := by rw [← two, UInt8.add_sub_cancel]
  simp only [counting_varCount, counting_counting, two, back, UInt8.add_sub_cancel] at next₂ fits₁ fits₂ ⊢
  exact ⟨by simp only [List.append_assoc, List.append_nil], counting_self g, by omega⟩

private theorem generatesFrom_arith (tree : Arith) : GeneratesFrom tree.expr tree.code tree.depth := by
  induction tree with
  | literal digits =>
    intro g out code g' success
    rw [Arith.expr, generateExpr] at success
    cases parsed : parseU16 digits with
    | none =>
      rw [parsed] at success
      cases success
    | some val =>
      rw [parsed] at success
      cases success
      rw [Arith.code, Arith.number, parsed]
      exact ⟨rfl, rfl, g.self.varCount.toNat_lt⟩
  | add left right first second => exact .binary (by decide) rfl first second
  | sub left right first second => exact .binary (by decide) rfl first second

section Loading

variable {World : Type} {host : Host World}

private theorem append_append (loader : Loader World) (first second : Bytes) :
    append (append loader first) second = append loader (first ++ second) := by
  simp only [append, ByteMemory.writeBytes_append, List.length_append, Nat.add_assoc]

/-- An instruction with fixed operands. -/
def IsPlain (item : Layout) : Prop := item.Valid ∧ ∃ opcode operands, item = .plain opcode operands

/-- Code without texts and counts is copied. -/
private theorem loadLoop_plain {items : List Layout} (plain : ∀ item ∈ items, IsPlain item) :
    ∀ (loader : Loader World) (rest : Bytes),
      loadLoop host items.length (feed loader (emittedAll items ++ rest)) =
        .ok ((), feed (append loader (emittedAll items)) rest) := by
  induction items with
  | nil =>
    intro loader rest
    simp [loadLoop, append, emittedAll]
    rfl
  | cons item items ih =>
    intro loader rest
    obtain ⟨⟨valid, opcode, operands, rfl⟩, later⟩ := List.forall_mem_cons.mp plain
    have all : emittedAll (.plain opcode operands :: items) = opcode :: operands ++ emittedAll items := rfl
    rw [List.length_cons, loadLoop, get_bind, all, List.append_assoc, if_neg (by simp [feed]),
      bind_of_ok (loadStep_plain valid _ _), ih later, append_append]

private theorem code_plain (tree : Arith) : ∀ counter out, ∀ item ∈ (tree.code counter out).map layout, IsPlain item := by
  induction tree with
  | literal digits =>
    intro counter out
    simp only [Arith.code, List.map_cons, List.map_nil, List.forall_mem_singleton]
    exact ⟨layout_valid trivial, _, _, rfl⟩
  | add left right first second | sub left right first second =>
    intro counter out
    simp only [Arith.code, List.map_append, List.forall_mem_append, List.map_cons, List.map_nil,
      List.forall_mem_singleton]
    exact ⟨first _ _, second _ _, layout_valid trivial, _, _, rfl⟩

private theorem code_counted (tree : Arith) : ∀ counter out, ∀ instr ∈ tree.code counter out, Counted instr := by
  induction tree with
  | literal digits =>
    intro counter out
    exact List.forall_mem_singleton.mpr trivial
  | add left right first second | sub left right first second =>
    intro counter out
    simp only [Arith.code, List.forall_mem_append, List.forall_mem_singleton]
    exact ⟨first _ _, second _ _, trivial⟩

end Loading

/-- An integer modulo `2 ^ 61` as a term. -/
def intTerm (n : ℤ) : Term := intFrom (UInt64.ofNat (n % 2 ^ 61).toNat)

theorem intOf_intTerm (n : ℤ) : ((intOf (intTerm n)).toNat : ℤ) = n % 2 ^ 61 := by
  rw [intTerm, intOf_intFrom, UInt64.toNat_ofNat']
  omega

theorem intFrom_eq_intTerm {word : UInt64} {n : ℤ} (same : (word.toNat : ℤ) % 2 ^ 61 = n % 2 ^ 61) :
    intFrom word = intTerm n := by
  refine term_ext ?_ (by rw [intTerm, intFrom, intFrom, tagOf_tagAs, tagOf_tagAs])
  have left := intOf_intFrom word
  have right := intOf_intTerm n
  rw [intOf_toNat, ← extractPtr_eq] at left right
  omega

private theorem intTerm_inj {m n : ℤ} : intTerm m = intTerm n ↔ m % 2 ^ 61 = n % 2 ^ 61 := by
  refine ⟨fun same => ?_, fun same => by rw [intTerm, intTerm, same]⟩
  rw [← intOf_intTerm, same, intOf_intTerm]

private theorem intTerm_add (m n : ℤ) : intFrom (intOf (intTerm m) + intOf (intTerm n)) = intTerm (m + n) := by
  have left := intOf_intTerm m
  have right := intOf_intTerm n
  refine intFrom_eq_intTerm ?_
  rw [UInt64.toNat_add]
  omega

private theorem intTerm_sub (m n : ℤ) : intFrom (intOf (intTerm m) - intOf (intTerm n)) = intTerm (m - n) := by
  have left := intOf_intTerm m
  have right := intOf_intTerm n
  refine intFrom_eq_intTerm ?_
  rw [UInt64.toNat_sub]
  omega

/-- What the decoder makes of the two bytes of a literal. -/
private theorem decoded_literal (val : UInt16) :
    intFrom (((val % 250).toUInt8.toUInt16 + 256 * (val / 250).toUInt8.toUInt16).toUInt64) =
      intTerm (val.toNat + Arith.literalDrift val) := by
  have small := val.toNat_lt
  refine intFrom_eq_intTerm ?_
  simp only [UInt16.toNat_toUInt64, UInt16.toNat_add, UInt16.toNat_mul, UInt8.toNat_toUInt16,
    UInt16.toNat_toUInt8, UInt16.toNat_mod, UInt16.toNat_div, Arith.literalDrift]
  have base : (250 : UInt16).toNat = 250 := rfl
  have other : (256 : UInt16).toNat = 256 := rfl
  rw [base, other]
  have digits : val.toNat = 250 * (val.toNat / 250) + val.toNat % 250 := (Nat.div_add_mod ..).symm
  have low : val.toNat % 250 < 250 := Nat.mod_lt _ (by decide)
  generalize val.toNat / 250 = high at digits ⊢
  generalize val.toNat % 250 = rest at digits low ⊢
  have word : (rest % 2 ^ 8 + 256 * (high % 2 ^ 8) % 2 ^ 16) % 2 ^ 16 = rest + 256 * (high % 256) := by
    omega
  rw [word]
  split
  · have : high % 256 = high - 256 := by omega
    omega
  · have : high % 256 = high := by omega
    omega

section Executing

variable {World : Type} {host : Host World} {vm vm' : Vm World}

/-- The term in a register of the frame that is executed. -/
def register (vm : Vm World) (reg : UInt8) : Term := (vm.frames vm.currentFrame).registers reg.toNat

/-- The machine after an instruction of `n` bytes that has written a register. -/
def stored (vm : Vm World) (reg : UInt8) (term : Term) (n : ℕ) : Vm World :=
  { vm.setFrame vm.currentFrame ((vm.frames vm.currentFrame).setRegister reg.toNat term) with
    ip := vm.ip + n }

theorem register_stored (reg other : UInt8) (term : Term) (n : ℕ) :
    register (stored vm reg term n) other = if other = reg then term else register vm other := by
  simp only [register, stored, Vm.setFrame, Frame.setRegister, Function.update_self]
  split
  · next same => rw [same, Function.update_self]
  · next apart => rw [Function.update_of_ne fun same => apart (UInt8.toNat_inj.mp same)]

theorem Holds.left {first second : Bytes} (holds : Holds vm (first ++ second)) : Holds vm first :=
  fun i inside => (holds i (by rw [List.length_append]; omega)).trans (List.getElem_append_left inside)

theorem Holds.right {first second : Bytes} (holds : Holds vm (first ++ second)) (code : vm'.code = vm.code)
    (ip : vm'.ip = vm.ip + first.length) : Holds vm' second := by
  intro i inside
  have there := holds (first.length + i) (by rw [List.length_append]; omega)
  rw [List.getElem_append_right (by omega)] at there
  rw [code, ip, Nat.add_assoc, there]
  simp only [Nat.add_sub_cancel_left]

private theorem nextInt_run (vm : Vm World) : nextInt vm =
    .ok (intFrom ((vm.code (vm.ip + 1)).toUInt16 + 256 * (vm.code (vm.ip + 2)).toUInt16).toUInt64,
      { vm with ip := vm.ip + 2 }) := rfl

theorem setReg_small {reg : UInt8} (small : reg.toNat < REGISTER_COUNT) (term : Term) (vm : Vm World) :
    setReg reg term vm = .ok ((), stored vm reg term 0) := by
  rw [setReg_run, if_neg (Nat.not_le.mpr small)]
  rfl

theorem getVar_register {reg : UInt8} (small : reg.toNat < REGISTER_COUNT) (vm : Vm World) :
    getVar reg vm = .ok (register vm reg, vm) := by
  have low : ¬ 128 ≤ reg := by
    rw [UInt8.le_iff_toNat_le]
    exact Nat.not_le.mpr (Nat.lt_trans small (by decide))
  rw [getVar_run, if_neg low, if_neg (Nat.not_le.mpr small), register]

theorem step_storeInt {reg : UInt8} {val : UInt16} (small : reg.toNat < REGISTER_COUNT)
    (holds : Holds vm (OP_STORE_INT :: reg :: literalBytes val)) :
    step host vm = .ok ((), stored vm reg (intTerm (val.toNat + Arith.literalDrift val)) 4) := by
  have dst : vm.code (vm.ip + 1) = reg := holds 1 (by simp [literalBytes])
  have low : vm.code (vm.ip + 2) = (val % 250).toUInt8 := holds 2 (by simp [literalBytes])
  have high : vm.code (vm.ip + 3) = (val / 250).toUInt8 := holds 3 (by simp [literalBytes])
  rw [step, get_bind, holds.head]
  change opStoreInt vm = _
  rw [opStoreInt, nextByte_bind, bind_of_ok (nextInt_run _), dst, bind_of_ok (setReg_small small ..)]
  simp only [Nat.add_assoc, Nat.reduceAdd, low, high, decoded_literal]
  rfl

theorem opBinary_stored {operation : Term → Term → Term} {reg₁ reg₂ reg₃ opcode : UInt8}
    (small₁ : reg₁.toNat < REGISTER_COUNT) (small₂ : reg₂.toNat < REGISTER_COUNT)
    (small₃ : reg₃.toNat < REGISTER_COUNT) (holds : Holds vm [opcode, reg₁, reg₂, reg₃]) :
    opBinary operation vm =
      .ok ((), stored vm reg₁ (operation (register vm reg₂) (register vm reg₃)) 4) := by
  have dst : vm.code (vm.ip + 1) = reg₁ := holds 1 (by simp)
  have left : vm.code (vm.ip + 2) = reg₂ := holds 2 (by simp)
  have right : vm.code (vm.ip + 3) = reg₃ := holds 3 (by simp)
  rw [opBinary, nextByte_bind, nextByte_bind, nextByte_bind]
  simp only [Nat.add_assoc, Nat.reduceAdd, dst, left, right]
  rw [bind_of_ok (getVar_register small₂ _), bind_of_ok (getVar_register small₃ _),
    bind_of_ok (setReg_small small₁ ..)]
  rfl

private theorem step_add {reg₁ reg₂ reg₃ : UInt8} (small₁ : reg₁.toNat < REGISTER_COUNT)
    (small₂ : reg₂.toNat < REGISTER_COUNT) (small₃ : reg₃.toNat < REGISTER_COUNT) {m n : ℤ}
    (left : register vm reg₂ = intTerm m) (right : register vm reg₃ = intTerm n)
    (holds : Holds vm [OP_ADD, reg₁, reg₂, reg₃]) :
    step host vm = .ok ((), stored vm reg₁ (intTerm (m + n)) 4) := by
  rw [step, get_bind, holds.head]
  change opAdd vm = _
  rw [opAdd, opBinary_stored small₁ small₂ small₃ holds, left, right, intTerm_add]

private theorem step_sub {reg₁ reg₂ reg₃ : UInt8} (small₁ : reg₁.toNat < REGISTER_COUNT)
    (small₂ : reg₂.toNat < REGISTER_COUNT) (small₃ : reg₃.toNat < REGISTER_COUNT) {m n : ℤ}
    (left : register vm reg₂ = intTerm m) (right : register vm reg₃ = intTerm n)
    (holds : Holds vm [OP_SUB, reg₁, reg₂, reg₃]) :
    step host vm = .ok ((), stored vm reg₁ (intTerm (m - n)) 4) := by
  rw [step, get_bind, holds.head]
  change opSub vm = _
  rw [opSub, opBinary_stored small₁ small₂ small₃ holds, left, right, intTerm_sub]

/-- What code has done that computes an integer into its output register. -/
structure Computed (counter out : UInt8) (length : ℕ) (n : ℤ) (vm vm' : Vm World) : Prop where
  ip : vm'.ip = vm.ip + length
  code : vm'.code = vm.code
  value : register vm' out = intTerm n
  below : ∀ reg, reg.toNat ≤ counter.toNat → reg ≠ out → register vm' reg = register vm reg

/-- Wherever the emitted code stands, it runs to its end and computes the integer. -/
def Computes (host : Host World) (code : Bytecode) (counter out : UInt8) (n : ℤ) : Prop :=
  ∀ vm, Holds vm (emittedAll (code.map layout)) →
    ∃ vm', runWhere host (fun _ => True) code.length vm = some vm' ∧
      Computed counter out (emittedAll (code.map layout)).length n vm vm'

theorem runWhere_add (host : Host World) : ∀ (m n : ℕ) (vm vm' : Vm World),
    runWhere host (fun _ => True) m vm = some vm' →
    runWhere host (fun _ => True) (m + n) vm = runWhere host (fun _ => True) n vm'
  | 0, n, vm, vm', run => by
      cases run
      rw [Nat.zero_add]
  | m + 1, n, vm, vm', run => by
      rw [Nat.succ_add, runWhere, if_pos trivial]
      rw [runWhere, if_pos trivial] at run
      cases stepped : step host vm with
      | error stop =>
        rw [stepped] at run
        cases run
      | ok result =>
        rw [stepped] at run
        exact runWhere_add host m n result.2 vm' run

private theorem runWhere_one {vm vm' : Vm World} (run : step host vm = .ok ((), vm')) :
    runWhere host (fun _ => True) 1 vm = some vm' := by
  rw [runWhere, if_pos trivial, run]
  rfl

/-- Code for both operands and an instruction that combines them. -/
theorem Computes.operation {instr : Instruction} {leftCode rightCode : Bytecode} {counter out opcode : UInt8}
    {m n total : ℤ} (one : (counter + 1).toNat = counter.toNat + 1)
    (two : (counter + 2).toNat = counter.toNat + 2)
    (form : layout instr = .plain opcode [out, counter + 1, counter + 2])
    (left : Computes host leftCode (counter + 1) (counter + 1) m)
    (right : Computes host rightCode (counter + 2) (counter + 2) n)
    (combine : ∀ vm : Vm World, register vm (counter + 1) = intTerm m → register vm (counter + 2) = intTerm n →
      Holds vm [opcode, out, counter + 1, counter + 2] →
      step host vm = .ok ((), stored vm out (intTerm total) 4)) :
    Computes host (leftCode ++ (rightCode ++ [instr])) counter out total := by
  intro vm holds
  have last : emittedAll ([instr].map layout) = [opcode, out, counter + 1, counter + 2] := by
    rw [List.map_singleton, form]
    rfl
  rw [List.map_append, List.map_append, emittedAll_append, emittedAll_append] at holds ⊢
  obtain ⟨vm₁, ran₁, computed₁⟩ := left vm holds.left
  have holds₁ := holds.right computed₁.code computed₁.ip
  obtain ⟨vm₂, ran₂, computed₂⟩ := right vm₁ holds₁.left
  have holds₂ := holds₁.right computed₂.code computed₂.ip
  rw [last] at holds₂
  have apart : counter + 1 ≠ counter + 2 := by
    rw [ne_eq, ← UInt8.toNat_inj]
    omega
  have kept : register vm₂ (counter + 1) = intTerm m := by
    rw [computed₂.below _ (by omega) apart, computed₁.value]
  have final := combine vm₂ kept computed₂.value holds₂
  refine ⟨stored vm₂ out (intTerm total) 4, ?_, ?_, ?_, ?_, ?_⟩
  · rw [List.length_append, runWhere_add host _ _ _ _ ran₁, List.length_append,
      runWhere_add host _ _ _ _ ran₂]
    exact runWhere_one final
  · rw [last, stored, computed₂.ip, computed₁.ip, List.length_append, List.length_append]
    simp only [Nat.add_assoc]
    rfl
  · exact computed₂.code.trans computed₁.code
  · rw [register_stored, if_pos rfl]
  · intro reg low other
    have first : reg ≠ counter + 1 := fun same => by rw [same] at low; omega
    have second : reg ≠ counter + 2 := fun same => by rw [same] at low; omega
    rw [register_stored, if_neg other, computed₂.below reg (by omega) second,
      computed₁.below reg (by omega) first]

/-- The register that an instruction writes. -/
def target (instr : Instruction) : Option UInt8 :=
  match instr.writes with
  | some (.register reg) => some reg
  | _ => none

/-- Every register that the code writes is one of the frame. -/
def Fits (code : Bytecode) : Prop := ∀ instr ∈ code, ∀ reg ∈ target instr, reg.toNat < REGISTER_COUNT

instance (code : Bytecode) : Decidable (Fits code) :=
  @List.decidableBAll _ _ (fun instr => Option.decidableForallMem (target instr)) code

theorem Fits.append {first second : Bytecode} : Fits (first ++ second) ↔ Fits first ∧ Fits second :=
  List.forall_mem_append

theorem Fits.out {tree : Arith} {counter out : UInt8} (fits : Fits (tree.code counter out)) :
    out.toNat < REGISTER_COUNT := by
  cases tree with
  | literal digits => exact fits _ (List.mem_singleton_self _) out rfl
  | add left right | sub left right =>
    exact (Fits.append.mp (Fits.append.mp fits).2).2 _ (List.mem_singleton_self _) out rfl

/-- The machine computes the tree over the decoded literals. -/
def Runs (host : Host World) (tree : Arith) : Prop := ∀ counter out : UInt8,
  counter.toNat + tree.depth < 256 → Fits (tree.code counter out) →
    Computes host (tree.code counter out) counter out
      (tree.eval fun val => val.toNat + Arith.literalDrift val)

theorem Runs.operation {left right : Arith} {instr : Instruction} {counter out opcode : UInt8} {total : ℤ}
    (first : Runs host left) (second : Runs host right) (writes : target instr = some out)
    (form : layout instr = .plain opcode [out, counter + 1, counter + 2])
    (room : counter.toNat + max (left.depth + 1) (right.depth + 2) < 256)
    (fits : Fits (left.code (counter + 1) (counter + 1) ++ (right.code (counter + 2) (counter + 2) ++ [instr])))
    (combine : ∀ vm : Vm World, out.toNat < REGISTER_COUNT → (counter + 1).toNat < REGISTER_COUNT →
      (counter + 2).toNat < REGISTER_COUNT →
      register vm (counter + 1) = intTerm (left.eval fun val => val.toNat + Arith.literalDrift val) →
      register vm (counter + 2) = intTerm (right.eval fun val => val.toNat + Arith.literalDrift val) →
      Holds vm [opcode, out, counter + 1, counter + 2] →
      step host vm = .ok ((), stored vm out (intTerm total) 4)) :
    Computes host (left.code (counter + 1) (counter + 1) ++ (right.code (counter + 2) (counter + 2) ++ [instr]))
      counter out total := by
  have one : (counter + 1).toNat = counter.toNat + 1 := by
    rw [UInt8.toNat_add, show (1 : UInt8).toNat = 1 from rfl]
    omega
  have two : (counter + 2).toNat = counter.toNat + 2 := by
    rw [UInt8.toNat_add, show (2 : UInt8).toNat = 2 from rfl]
    omega
  obtain ⟨fits₁, rest⟩ := Fits.append.mp fits
  obtain ⟨fits₂, last⟩ := Fits.append.mp rest
  have small : out.toNat < REGISTER_COUNT := last instr (List.mem_singleton_self _) out writes
  exact .operation one two form (first _ _ (by omega) fits₁) (second _ _ (by omega) fits₂)
    fun vm => combine vm small fits₁.out fits₂.out

private theorem runs_arith (host : Host World) (tree : Arith) : Runs host tree := by
  induction tree with
  | literal digits =>
    intro counter out _ fits vm holds
    have ran : step host vm = .ok ((), stored vm out (intTerm _) 4) := step_storeInt fits.out holds
    refine ⟨_, runWhere_one ran, rfl, rfl, ?_, ?_⟩
    · rw [register_stored, if_pos rfl]
      rfl
    · intro reg _ other
      rw [register_stored, if_neg other]
  | add left right first second =>
    intro counter out room fits
    exact first.operation second rfl rfl room fits fun vm small₁ small₂ small₃ => step_add small₁ small₂ small₃
  | sub left right first second =>
    intro counter out room fits
    exact first.operation second rfl rfl room fits fun vm small₁ small₂ small₃ => step_sub small₁ small₂ small₃

end Executing

/-- The loader copies the emitted code, and wherever a machine executes the copy it leaves the integer in
the output register. -/
def RunsFaithfully (code : Bytecode) (emitted : Bytes) (out : UInt8) (n : ℤ) : Prop :=
  ∀ (World : Type) (host : Host World) (loader : Loader World) (rest : Bytes),
    ∃ loader', loadLoop host code.length (feed loader (emitted ++ rest)) = .ok ((), loader') ∧
      loader'.scanner = rest ∧
      ∀ vm : Vm World, vm.ip = loader.codePtr →
        (∀ i, loader.codePtr ≤ i → i < loader'.codePtr → vm.code i = loader'.vm.code i) →
        ∃ vm', runWhere host (fun _ => True) code.length vm = some vm' ∧ vm'.ip = loader'.codePtr ∧
          register vm' out = intTerm n

private theorem eval_add (first second : UInt16 → ℤ) (tree : Arith) :
    (tree.eval fun val => first val + second val) = tree.eval first + tree.eval second := by
  induction tree with
  | literal digits => rfl
  | add left right ih₁ ih₂ | sub left right ih₁ ih₂ =>
    simp only [Arith.eval, ih₁, ih₂]
    omega

/-- The machine holds the bytes that have been appended to the code. -/
private theorem holds_appended {World : Type} {loader : Loader World} {vm : Vm World} {code : Bytes}
    (ip : vm.ip = loader.codePtr)
    (same : ∀ i, loader.codePtr ≤ i → i < (append loader code).codePtr → vm.code i = (append loader code).vm.code i) :
    Holds vm code := by
  intro i inside
  have there := same (loader.codePtr + i) (Nat.le_add_right ..) (Nat.add_lt_add_left inside _)
  have written : (append loader code).vm.code (loader.codePtr + i) = code.getD (loader.codePtr + i - loader.codePtr) 0 :=
    ByteMemory.writeBytes_inside (Nat.le_add_right ..) (Nat.add_lt_add_left inside _)
  rw [ip, there, written, Nat.add_sub_cancel_left, List.getD_eq_getElem _ _ inside]

/-- The integer that is left is the one over the decoded literals. -/
private theorem runsFaithfully_iff_decoded {tree : Arith} {counter out : UInt8}
    (room : counter.toNat + tree.depth < 256) (fits : Fits (tree.code counter out)) (n : ℤ) :
    RunsFaithfully (tree.code counter out) (emittedAll ((tree.code counter out).map layout)) out n ↔
      intTerm n = intTerm (tree.value + tree.drift) := by
  have loads {World : Type} (host : Host World) (loader : Loader World) (rest : Bytes) :=
    @loadLoop_plain World host _ (code_plain tree counter out) loader rest
  have decoded : tree.value + tree.drift = tree.eval fun val => val.toNat + Arith.literalDrift val :=
    (eval_add ..).symm
  rw [decoded]
  constructor
  · intro faithful
    obtain ⟨loader', loaded, -, executes⟩ := faithful Tables referenceHost freshLoader []
    have same := loads referenceHost freshLoader []
    rw [List.length_map] at same
    cases loaded.symm.trans same
    obtain ⟨final, ran, -, value⟩ := executes
      { freshLoader.vm with
        ip := freshLoader.codePtr
        code := (append freshLoader (emittedAll ((tree.code counter out).map layout))).vm.code }
      rfl fun _ _ _ => rfl
    obtain ⟨final', ran', computed⟩ := runs_arith referenceHost tree counter out room fits
      { freshLoader.vm with
        ip := freshLoader.codePtr
        code := (append freshLoader (emittedAll ((tree.code counter out).map layout))).vm.code }
      (holds_appended rfl fun _ _ _ => rfl)
    rw [← value, ← computed.value, Option.some.inj (ran.symm.trans ran')]
  · intro equal World host loader rest
    have loaded := loads host loader rest
    rw [List.length_map] at loaded
    refine ⟨_, loaded, rfl, fun vm ip same => ?_⟩
    obtain ⟨final, ran, computed⟩ := runs_arith host tree counter out room fits vm (holds_appended ip same)
    exact ⟨final, ran, by rw [computed.ip, ip]; rfl, computed.value.trans equal.symm⟩

/-- The code of a tree leaves its value exactly if the decoder's errors on its literals cancel. -/
theorem runsFaithfully_iff_driftless {g g' : Scope} {out : UInt8} {tree : Arith} {code : Bytecode}
    {emitted : List Bytes} (generated : generateExpr g (.register out) tree.expr = .ok (code, g'))
    (encoded : code.mapM Instruction.emit = .ok emitted) (fits : Fits code) :
    RunsFaithfully code emitted.flatten out tree.value ↔ tree.drift % 2 ^ 61 = 0 := by
  obtain ⟨rfl, -, room⟩ := generatesFrom_arith tree g out code g' generated
  have counted : ∀ instr ∈ tree.code g.self.varCount out, Counted instr :=
    code_counted tree g.self.varCount out
  rw [codeEmit_eq_ok counted encoded, runsFaithfully_iff_decoded room fits, intTerm_inj]
  omega

/-- A generator that has allocated no register. -/
def emptyScope : Scope where
  self := { varCount := 0, moduleName := bytes "M", functionName := bytes "f", env := [], upvals := [] }
  parents := []

/-- `(7 + 249) - 30`. -/
def smallLiterals : Arith :=
  .sub (.add (.literal (bytes "7")) (.literal (bytes "249"))) (.literal (bytes "30"))

theorem runsFaithfully_smallLiterals : ∃ code emitted,
    generateExpr emptyScope (.register 0) smallLiterals.expr = .ok (code, emptyScope) ∧
    code.mapM Instruction.emit = .ok emitted ∧ RunsFaithfully code emitted.flatten 0 226 := by
  have generated : generateExpr emptyScope (.register 0) smallLiterals.expr =
      .ok (smallLiterals.code 0 0, emptyScope) := rfl
  refine ⟨_, _, generated, rfl, (runsFaithfully_iff_driftless generated rfl ?_).mpr ?_⟩
  · decide
  · decide

/-- The literal 250 is decoded as 256. -/
theorem runsFaithfully_fails : ¬ ∀ (g g' : Scope) (out : UInt8) (tree : Arith) (code : Bytecode)
    (emitted : List Bytes), generateExpr g (.register out) tree.expr = .ok (code, g') →
    code.mapM Instruction.emit = .ok emitted → Fits code →
    RunsFaithfully code emitted.flatten out tree.value := by
  intro faithful
  have fits : Fits ((Arith.literal (bytes "250")).code 0 0) := by decide
  have one := faithful emptyScope emptyScope 0 (.literal (bytes "250")) _ _ rfl rfl fits
  exact absurd ((runsFaithfully_iff_decoded (by decide) fits _).mp one) (by decide)

end Owl.Format
