import Owl.Model.Language.Semantics
import Owl.Soundness.Arithmetic
import Owl.Soundness.RegisterBounds

/-! # What instructions do

One round of the machine for each kind of instruction that the evaluator describes: it computes in the store
what the operation computes from the terms in its operand registers, writes its output register and goes on
behind itself.
-/

namespace Owl.Language

open Owl.Compiler Owl.Runtime Owl.Format StateExcept

variable {World : Type} {host : Host World} {vm : Vm World}

def storeOf (vm : Vm World) : Store World := ⟨vm.heap, vm.statics, vm.world⟩

def withStore (vm : Vm World) (store : Store World) : Vm World :=
  { vm with heap := store.heap, statics := store.statics, world := store.world }

/-- An operation leaves the function records alone. -/
def Operation.KeepsRecords (operation : Operation World) : Prop :=
  ∀ args store result, operation args store = .ok result → result.2.statics = store.statics

private theorem library_keepsRecords (routine : Routine World) : Operation.KeepsRecords (library routine) := by
  intro args store result run
  simp only [library, Except.bind_eq_ok, Except.pure_eq_ok] at run
  obtain ⟨reply, -, heap, -, rfl⟩ := run
  rfl

theorem onWords_keepsRecords (operation : Term → Term → Term) :
    Operation.KeepsRecords (onWords operation : Operation World) := by
  rintro (_ | ⟨left, _ | ⟨right, rest⟩⟩) store result run <;> cases run
  rfl

private theorem onEqual_keepsRecords (host : Host World) (answer : Bool → Bool) :
    Operation.KeepsRecords (onEqual host answer) := by
  rintro (_ | ⟨left, _ | ⟨right, rest⟩⟩) store result run
  · cases run
  · cases run
  · simp only [onEqual, Except.bind_eq_ok, Except.pure_eq_ok] at run
    obtain ⟨equal, -, rfl⟩ := run
    rfl

theorem operations_keepRecords (host : Host World) : ∀ entry ∈ operations host, entry.2.KeepsRecords := by
  have single (operation : Term → Term) : Operation.KeepsRecords (onWord operation : Operation World) := by
    rintro (_ | ⟨value, rest⟩) store result run <;> cases run
    rfl
  have tuple : Operation.KeepsRecords (onTuple : Operation World) := by
    rintro (_ | ⟨tuple, _ | ⟨index, rest⟩⟩) store result run
    · contradiction
    · contradiction
    · rw [onTuple, Except.ok.injEq] at run
      rw [← run]
  have routine (routine : Routine World) (n : ℕ) : Operation.KeepsRecords (onLibrary routine n) :=
    fun args => library_keepsRecords routine (args.take n)
  simp only [operations, List.forall_mem_cons, List.not_mem_nil, false_imp_iff, implies_true, and_true]
  exact ⟨onWords_keepsRecords _, routine _ _, onWords_keepsRecords _, onEqual_keepsRecords _ _, onEqual_keepsRecords _ _,
    single _, onWords_keepsRecords _, routine _ _, routine _ _, tuple, routine _ _, routine _ _, routine _ _,
    routine _ _, routine _ _, routine _ _, routine _ _⟩

theorem makeTuple_keepsRecords : Operation.KeepsRecords (makeTuple : Operation World) := by
  intro args store result run
  simp only [makeTuple, Except.bind_eq_ok, Prod.exists, Except.pure_eq_ok] at run
  obtain ⟨ary, heap, -, rfl⟩ := run
  rfl

theorem makeList_keepsRecords (host : Host World) : Operation.KeepsRecords (makeList host) := by
  have pushed : ∀ elems list, Operation.KeepsRecords fun _ store => pushAll host list elems store := by
    intro elems
    induction elems with
    | nil =>
      intro list args store result run
      cases run
      rfl
    | cons elem elems ih =>
      intro list args store result run
      simp only [pushAll, Except.bind_eq_ok, Prod.exists] at run
      obtain ⟨list', store', one, rest⟩ := run
      exact (ih list' args store' result rest).trans (library_keepsRecords host.listPush _ store _ one)
  exact fun args => pushed args _ args

/-- The machine after an instruction of `n` bytes that has computed a term. -/
def finished (vm : Vm World) (out : UInt8) (n : ℕ) (result : Term × Store World) : Vm World :=
  stored (withStore vm result.2) out result.1 n

/-- A round that computes what the operation does. -/
def Computes (host : Host World) (vm : Vm World) (out : UInt8) (n : ℕ)
    (run : Except Stop (Term × Store World)) : Prop :=
  step host vm = run.map fun result => ((), finished vm out n result)

theorem step_eq {opcode : UInt8} {handler : Exec World Unit} (same : vm.code vm.ip = opcode)
    (member : (opcode, handler) ∈ handlers host) (known : opcode ≠ 255) : step host vm = handler vm := by
  rw [step_run, same, if_neg known]
  cases found : (handlers host).lookup opcode with
  | none =>
    obtain absent := List.lookup_eq_none_iff.mp found (opcode, handler) member
    simp at absent
  | some other =>
    obtain ⟨before, after, split, -⟩ := List.lookup_eq_some_iff.mp found
    rw [Option.getD_some, handlers_unique host member (show (opcode, other) ∈ handlers host by rw [split]; simp)]

/-- What every instruction does last: it writes its output register and goes on behind itself. -/
theorem store_run {out : UInt8} (small : out.toNat < REGISTER_COUNT) (term : Term) {position n : ℕ} (vm : Vm World)
    (behind : position + 1 = vm.ip + n) : (do
      setReg out term
      advance 1 : Exec World Unit) { vm with ip := position } = .ok ((), stored vm out term n) := by
  rw [bind_of_ok (setReg_small small ..), advance_run, stored, stored]
  simp only [Nat.add_zero, behind]
  rfl

@[simp] theorem register_withIp (vm : Vm World) (ip : ℕ) (reg : UInt8) : register { vm with ip } reg = register vm reg :=
  rfl

private theorem call_run (routine : Routine World) (args : List Term) (vm : Vm World) :
    call routine args vm = (library routine args (storeOf vm)).map fun result => (result.1, withStore vm result.2) := by
  rw [call, get_bind, lift_bind]
  change _ = Except.map _ (routine vm.memory vm.world args >>= _)
  cases routine vm.memory vm.world args with
  | error stop => rfl
  | ok reply =>
    rw [Except.ok_bind, Except.ok_bind, lift_bind]
    change _ = Except.map _ (vm.heap.allocBlocks reply.blocks >>= _)
    cases vm.heap.allocBlocks reply.blocks <;> rfl

section Operands

variable {opcode out : UInt8} {regs : List UInt8}

/-- Every register is one of the frame. -/
def InFrame (regs : List UInt8) : Prop := ∀ reg ∈ regs, reg.toNat < REGISTER_COUNT

theorem holds_next {first : UInt8} {rest : Bytes} (holds : Holds vm (first :: rest)) :
    vm.code vm.ip = first ∧ Holds { vm with ip := vm.ip + 1 } rest :=
  ⟨holds.head, @Holds.right _ vm { vm with ip := vm.ip + 1 } [first] rest holds rfl rfl⟩

theorem holds_drop (before : Bytes) {rest : Bytes} (holds : Holds vm (before ++ rest)) :
    Holds { vm with ip := vm.ip + before.length } rest := holds.right rfl rfl

/-- Operand bytes are read one after the other. -/
private theorem getVars_run (inFrame : InFrame regs) (holds : Holds { vm with ip := vm.ip + 1 } regs) :
    getVars regs.length vm = .ok (regs.map (register vm), { vm with ip := vm.ip + regs.length }) := by
  induction regs generalizing vm with
  | nil => rfl
  | cons reg regs ih =>
    obtain ⟨head, tail⟩ := holds_next holds
    obtain ⟨small, others⟩ := List.forall_mem_cons.mp inFrame
    have read : vm.code (vm.ip + 1) = reg := head
    rw [List.length_cons, getVars, nextByte_bind, read, bind_of_ok (getVar_register small _),
      bind_of_ok (ih others tail)]
    simp only [List.map_cons, Nat.add_comm regs.length, ← Nat.add_assoc]
    rfl

theorem opStore_computes {term : Term} (small : out.toNat < REGISTER_COUNT) (holds : Holds vm [opcode, out]) :
    opStore term vm = .ok ((), stored vm out term 2) := by
  have dst : vm.code (vm.ip + 1) = out := holds 1 (by simp)
  rw [opStore, nextByte_bind, dst, bind_of_ok (setReg_small small ..)]
  rfl

theorem opMov_computes {src : UInt8} (inFrame : InFrame [out, src]) (holds : Holds vm [opcode, out, src]) :
    opMov vm = .ok ((), stored vm out (register vm src) 3) := by
  have dst : vm.code (vm.ip + 1) = out := holds 1 (by simp)
  have source : vm.code (vm.ip + 2) = src := holds 2 (by simp)
  rw [opMov, nextByte_bind, nextByte_bind]
  simp only [Nat.add_assoc, Nat.reduceAdd, dst, source]
  rw [bind_of_ok (getVar_register (inFrame src (by simp)) _), bind_of_ok (setReg_small (inFrame out (by simp)) ..)]
  rfl

private theorem opNot_computes {reg : UInt8} (inFrame : InFrame [out, reg]) (holds : Holds vm [opcode, out, reg]) :
    opNot vm = .ok ((), stored vm out (negate (register vm reg)) 3) := by
  have dst : vm.code (vm.ip + 1) = out := holds 1 (by simp)
  have source : vm.code (vm.ip + 2) = reg := holds 2 (by simp)
  rw [opNot, nextByte_bind, nextByte_bind]
  simp only [Nat.add_assoc, Nat.reduceAdd, dst, source]
  rw [bind_of_ok (getVar_register (inFrame reg (by simp)) _), bind_of_ok (setReg_small (inFrame out (by simp)) ..)]
  rfl

private theorem opCompare_computes {answer : Bool → Bool} {left right : UInt8} (inFrame : InFrame [out, left, right])
    (holds : Holds vm [opcode, out, left, right]) : opCompare host answer vm =
      (onEqual host answer [register vm left, register vm right] (storeOf vm)).map
        fun result => ((), finished vm out 4 result) := by
  have dst : vm.code (vm.ip + 1) = out := holds 1 (by simp)
  have first : vm.code (vm.ip + 2) = left := holds 2 (by simp)
  have second : vm.code (vm.ip + 3) = right := holds 3 (by simp)
  rw [opCompare, nextByte_bind, nextByte_bind, nextByte_bind]
  simp only [Nat.add_assoc, Nat.reduceAdd, dst, first, second]
  rw [bind_of_ok (getVar_register (inFrame left (by simp)) _), bind_of_ok (getVar_register (inFrame right (by simp)) _),
    get_bind, lift_bind, onEqual]
  change (host.termsEq vm.memory vm.world (register vm left) (register vm right) >>= _) =
    Except.map _ (host.termsEq vm.memory vm.world (register vm left) (register vm right) >>= _)
  cases host.termsEq vm.memory vm.world (register vm left) (register vm right) with
  | error stop => rfl
  | ok equal =>
    rw [Except.ok_bind, Except.ok_bind, bind_of_ok (setReg_small (inFrame out (by simp)) ..)]
    rfl

private theorem tupleNth_run (tuple : Term) (index : UInt8) (vm : Vm World) :
    tupleNth tuple index vm = .ok (elementOf vm.heap tuple index, vm) := by
  rw [tupleNth, get_bind, elementOf]
  split <;> rfl

private theorem opTupleNth_computes {tuple index : UInt8} (inFrame : InFrame [out, tuple, index])
    (holds : Holds vm [opcode, out, tuple, index]) : opTupleNth vm =
      (onTuple [register vm tuple, register vm index] (storeOf vm)).map
        fun result => ((), finished vm out 4 result) := by
  have dst : vm.code (vm.ip + 1) = out := holds 1 (by simp)
  have first : vm.code (vm.ip + 2) = tuple := holds 2 (by simp)
  have second : vm.code (vm.ip + 3) = index := holds 3 (by simp)
  rw [opTupleNth, nextByte_bind, nextByte_bind, nextByte_bind]
  simp only [Nat.add_assoc, Nat.reduceAdd, dst, first, second]
  rw [bind_of_ok (getVar_register (inFrame index (by simp)) _), bind_of_ok (getVar_register (inFrame tuple (by simp)) _),
    bind_of_ok (tupleNth_run ..), store_run (inFrame out (by simp)) _ vm (show vm.ip + 3 + 1 = vm.ip + 4 from rfl)]
  simp only [register_withIp, onTuple, Except.map, finished]
  rfl

/-- A routine of the library takes as many operands as its instruction reads. -/
private theorem opRoutine_computes {routine : Routine World} (inFrame : InFrame (out :: regs))
    (holds : Holds vm (opcode :: out :: regs)) : opRoutine routine regs.length vm =
      (library routine (regs.map (register vm)) (storeOf vm)).map
        fun result => ((), finished vm out (2 + regs.length) result) := by
  obtain ⟨small, others⟩ := List.forall_mem_cons.mp inFrame
  obtain ⟨dst, rest⟩ := holds_next (holds_next holds).2
  have read : vm.code (vm.ip + 1) = out := dst
  rw [opRoutine, nextByte_bind, read, bind_of_ok (getVars_run others rest)]
  refine bind_of_map (call_run ..) fun result => ?_
  exact store_run small _ (withStore vm result.2) (show vm.ip + 1 + regs.length + 1 = vm.ip + (2 + regs.length) by omega)

end Operands

/-- What the emitter of a built-in operation makes of operand registers computes the operation. -/
def Realizes (host : Host World) (operation : Operation World) (emitter : Emitter) : Prop :=
  ∀ (vm : Vm World) (id out : UInt8) (regs : List UInt8) (instr : Instruction),
    emitter (.register out) (regs.map .register) = .ok instr → (∀ ref ∈ instr.refs, ref.InFrame) →
    Holds vm ((layout instr).loaded id) →
    Computes host vm out (layout instr).width (operation (regs.map (register vm)) (storeOf vm))

/-- The emitter takes `n` operands and lays them out behind the destination. -/
def EmitsPlain (emitter : Emitter) (opcode : UInt8) (n : ℕ) : Prop :=
  ∀ dst args instr, emitter dst args = .ok instr →
    n ≤ args.length ∧ layout instr = .plain opcode (Format.operands (dst :: args.take n)) ∧
      instr.writes = some dst ∧ instr.operands = args.take n

section Realizes

variable {opcode : UInt8} {handler : Exec World Unit} {operation : Operation World} {n : ℕ}

private theorem nullary_emits {instr : VarRef → Instruction} (form : ∀ dst,
      layout (instr dst) = .plain opcode (Format.operands [dst]) ∧ (instr dst).writes = some dst ∧
        (instr dst).operands = []) :
    EmitsPlain (nullary instr) opcode 0 := by
  intro dst args me emitted
  cases emitted
  exact ⟨Nat.zero_le _, form dst⟩

theorem unary_emits {instr : VarRef → VarRef → Instruction}
    (form : ∀ dst x, layout (instr dst x) = .plain opcode (Format.operands [dst, x]) ∧
      (instr dst x).writes = some dst ∧ (instr dst x).operands = [x]) :
    EmitsPlain (unary instr) opcode 1 := by
  intro dst args me emitted
  rcases args with _ | ⟨x, rest⟩
  · cases emitted
  · cases emitted
    exact ⟨by simp, form dst x⟩

theorem binary_emits {instr : VarRef → VarRef → VarRef → Instruction}
    (form : ∀ dst x y, layout (instr dst x y) = .plain opcode (Format.operands [dst, x, y]) ∧
      (instr dst x y).writes = some dst ∧ (instr dst x y).operands = [x, y]) :
    EmitsPlain (binary instr) opcode 2 := by
  intro dst args me emitted
  rcases args with _ | ⟨x, _ | ⟨y, rest⟩⟩
  · cases emitted
  · cases emitted
  · cases emitted
    exact ⟨by simp, form dst x y⟩

private theorem ternary_emits {instr : VarRef → VarRef → VarRef → VarRef → Instruction}
    (form : ∀ dst x y z, layout (instr dst x y z) = .plain opcode (Format.operands [dst, x, y, z]) ∧
      (instr dst x y z).writes = some dst ∧ (instr dst x y z).operands = [x, y, z]) :
    EmitsPlain (ternary instr) opcode 3 := by
  intro dst args me emitted
  rcases args with _ | ⟨x, _ | ⟨y, _ | ⟨z, rest⟩⟩⟩
  · cases emitted
  · cases emitted
  · cases emitted
  · cases emitted
    exact ⟨by simp, form dst x y z⟩

/-- The bytes of operands that are registers are the registers. -/
theorem operands_registers (regs : List UInt8) : Format.operands (regs.map .register) = regs := by
  simp [Format.operands, Function.comp_def, Format.operand]

/-- An operation whose handler computes it from as many operands as the emitter lays out. -/
theorem EmitsPlain.realizes {emitter : Emitter} (emits : EmitsPlain emitter opcode n)
    (member : (opcode, handler) ∈ handlers host) (known : opcode ≠ 255)
    (computes : ∀ (vm : Vm World) (out : UInt8) (regs : List UInt8) (rest : List Term), regs.length = n →
      InFrame (out :: regs) → Holds vm (opcode :: out :: regs) → handler vm =
        (operation (regs.map (register vm) ++ rest) (storeOf vm)).map fun result => ((), finished vm out (2 + n) result)) :
    Realizes host operation emitter := by
  intro vm id out regs instr emitted inFrame holds
  obtain ⟨enough, form, written, taken⟩ := emits _ _ _ emitted
  have laid : Format.operands (.register out :: (regs.map VarRef.register).take n) = out :: regs.take n := by
    rw [← List.map_take, ← List.map_cons (f := VarRef.register), operands_registers]
  have length : (regs.take n).length = n := by simpa using enough
  have width : (Layout.plain opcode (out :: regs.take n)).width = 2 + n := by
    rw [Layout.width_plain, List.length_cons, length]
    omega
  rw [form, laid] at holds ⊢
  have inside : InFrame (out :: regs.take n) := by
    rw [InFrame, List.forall_mem_cons]
    refine ⟨inFrame (.register out) (by simp [Instruction.refs, written]) out rfl, fun reg member => ?_⟩
    refine inFrame (.register reg) ?_ reg rfl
    rw [Instruction.refs, taken, ← List.map_take]
    exact List.mem_append_left _ (List.mem_append_right _ (List.mem_map_of_mem member))
  rw [Computes, step_eq (holds_next holds).1 member known, width,
    computes vm out (regs.take n) ((regs.drop n).map (register vm)) length inside holds, ← List.map_append,
    List.take_append_drop]

theorem realizes_library {emitter : Emitter} {routine : Routine World} (emits : EmitsPlain emitter opcode n)
    (member : (opcode, opRoutine routine n) ∈ handlers host) (known : opcode ≠ 255) :
    Realizes host (onLibrary routine n) emitter := by
  refine emits.realizes member known fun vm out regs rest length inFrame holds => ?_
  subst length
  rw [opRoutine_computes inFrame holds, onLibrary, List.take_left' (by simp)]

theorem realizes_words {emitter : Emitter} {word : Term → Term → Term} (emits : EmitsPlain emitter opcode 2)
    (member : (opcode, opBinary word) ∈ handlers host) (known : opcode ≠ 255) :
    Realizes host (onWords word) emitter := by
  refine emits.realizes member known fun vm out regs rest length inFrame holds => ?_
  obtain ⟨x, y, rfl⟩ := List.length_eq_two.mp length
  exact opBinary_stored (inFrame out (by simp)) (inFrame x (by simp)) (inFrame y (by simp)) holds

private theorem realizes_equal {emitter : Emitter} {answer : Bool → Bool} (emits : EmitsPlain emitter opcode 2)
    (member : (opcode, opCompare host answer) ∈ handlers host) (known : opcode ≠ 255) :
    Realizes host (onEqual host answer) emitter := by
  refine emits.realizes member known fun vm out regs rest length inFrame holds => ?_
  obtain ⟨x, y, rfl⟩ := List.length_eq_two.mp length
  exact opCompare_computes inFrame holds

private theorem realizes_tuple {emitter : Emitter} (emits : EmitsPlain emitter opcode 2)
    (member : (opcode, opTupleNth) ∈ handlers host) (known : opcode ≠ 255) : Realizes host onTuple emitter := by
  refine emits.realizes member known fun vm out regs rest length inFrame holds => ?_
  obtain ⟨x, y, rfl⟩ := List.length_eq_two.mp length
  exact opTupleNth_computes inFrame holds

private theorem realizes_not {emitter : Emitter} (emits : EmitsPlain emitter opcode 1)
    (member : (opcode, opNot) ∈ handlers host) (known : opcode ≠ 255) : Realizes host (onWord negate) emitter := by
  refine emits.realizes member known fun vm out regs rest length inFrame holds => ?_
  obtain ⟨x, rfl⟩ := List.length_eq_one_iff.mp length
  exact opNot_computes inFrame holds

/-- Every operation that the evaluator knows has an emitter that realizes it. -/
theorem operations_realized (host : Host World) : ∀ entry ∈ operations host, ∃ emitter,
    builtins.lookup entry.1 = some emitter ∧ Realizes host entry.2 emitter := by
  simp only [operations, List.forall_mem_cons, List.not_mem_nil, false_imp_iff, implies_true, and_true]
  exact ⟨
    ⟨_, rfl, realizes_words (binary_emits fun _ _ _ => ⟨rfl, rfl, rfl⟩)
      (show (OP_ADD, _) ∈ _ by simp [handlers, opAdd]) (by decide)⟩,
    ⟨_, rfl, realizes_library (binary_emits fun _ _ _ => ⟨rfl, rfl, rfl⟩)
      (show (OP_CONCAT, _) ∈ _ by simp [handlers, opConcat]) (by decide)⟩,
    ⟨_, rfl, realizes_words (binary_emits fun _ _ _ => ⟨rfl, rfl, rfl⟩)
      (show (OP_SUB, _) ∈ _ by simp [handlers, opSub]) (by decide)⟩,
    ⟨_, rfl, realizes_equal (binary_emits fun _ _ _ => ⟨rfl, rfl, rfl⟩)
      (show (OP_EQ, _) ∈ _ by simp [handlers, opEq]) (by decide)⟩,
    ⟨_, rfl, realizes_equal (binary_emits fun _ _ _ => ⟨rfl, rfl, rfl⟩)
      (show (OP_NOT_EQ, _) ∈ _ by simp [handlers, opNotEq]) (by decide)⟩,
    ⟨_, rfl, realizes_not (unary_emits fun _ _ => ⟨rfl, rfl, rfl⟩)
      (show (OP_NOT, _) ∈ _ by simp [handlers]) (by decide)⟩,
    ⟨_, rfl, realizes_words (binary_emits fun _ _ _ => ⟨rfl, rfl, rfl⟩)
      (show (OP_GREATER_THAN, _) ∈ _ by simp [handlers, opGreaterThan]) (by decide)⟩,
    ⟨_, rfl, realizes_library (nullary_emits fun _ => ⟨rfl, rfl, rfl⟩)
      (show (OP_FILE_PWD, _) ∈ _ by simp [handlers, opFilePwd]) (by decide)⟩,
    ⟨_, rfl, realizes_library (unary_emits fun _ _ => ⟨rfl, rfl, rfl⟩)
      (show (OP_FILE_LS, _) ∈ _ by simp [handlers, opFileLs]) (by decide)⟩,
    ⟨_, rfl, realizes_tuple (binary_emits fun _ _ _ => ⟨rfl, rfl, rfl⟩)
      (show (OP_TUPLE_NTH, _) ∈ _ by simp [handlers]) (by decide)⟩,
    ⟨_, rfl, realizes_library (binary_emits fun _ _ _ => ⟨rfl, rfl, rfl⟩)
      (show (OP_LIST_NTH, _) ∈ _ by simp [handlers, opListNth]) (by decide)⟩,
    ⟨_, rfl, realizes_library (unary_emits fun _ _ => ⟨rfl, rfl, rfl⟩)
      (show (OP_LIST_COUNT, _) ∈ _ by simp [handlers, opListCount]) (by decide)⟩,
    ⟨_, rfl, realizes_library (ternary_emits fun _ _ _ _ => ⟨rfl, rfl, rfl⟩)
      (show (OP_LIST_SLICE, _) ∈ _ by simp [handlers, opListSlice]) (by decide)⟩,
    ⟨_, rfl, realizes_library (ternary_emits fun _ _ _ _ => ⟨rfl, rfl, rfl⟩)
      (show (OP_STRING_SLICE, _) ∈ _ by simp [handlers, opStringSlice]) (by decide)⟩,
    ⟨_, rfl, realizes_library (unary_emits fun _ _ => ⟨rfl, rfl, rfl⟩)
      (show (OP_STRING_COUNT, _) ∈ _ by simp [handlers, opStringCount]) (by decide)⟩,
    ⟨_, rfl, realizes_library (binary_emits fun _ _ _ => ⟨rfl, rfl, rfl⟩)
      (show (OP_STRING_CONTAINS, _) ∈ _ by simp [handlers, opStringContains]) (by decide)⟩,
    ⟨_, rfl, realizes_library (unary_emits fun _ _ => ⟨rfl, rfl, rfl⟩)
      (show (OP_TO_STRING, _) ∈ _ by simp [handlers, opToString]) (by decide)⟩⟩

end Realizes

section Counted

variable {regs : List UInt8} {out : UInt8}

private theorem storeElements_run {address : ℕ} (inFrame : InFrame regs) (holds : Holds { vm with ip := vm.ip + 1 } regs) :
    storeElements address regs.length vm = .ok ((), { vm with
      ip := vm.ip + regs.length
      heap := writeTerms vm.heap address (regs.map (register vm)) }) := by
  induction regs generalizing vm address with
  | nil => rfl
  | cons reg regs ih =>
    obtain ⟨head, tail⟩ := holds_next holds
    obtain ⟨small, others⟩ := List.forall_mem_cons.mp inFrame
    have read : vm.code (vm.ip + 1) = reg := head
    rw [List.length_cons, storeElements, nextByte_bind, read, bind_of_ok (getVar_register small _), modify_bind]
    refine (@ih { vm with ip := vm.ip + 1, heap := vm.heap.writeTerm address (register vm reg) } (address + 8)
      others tail).trans ?_
    simp only [List.map_cons, writeTerms, Nat.add_comm regs.length, ← Nat.add_assoc]
    rfl

private theorem pushElements_run {list : Term} (inFrame : InFrame regs) (holds : Holds { vm with ip := vm.ip + 1 } regs) :
    pushElements host regs.length list vm = (pushAll host list (regs.map (register vm)) (storeOf vm)).map
      fun result => (result.1, withStore { vm with ip := vm.ip + regs.length } result.2) := by
  induction regs generalizing vm list with
  | nil => rfl
  | cons reg regs ih =>
    obtain ⟨head, tail⟩ := holds_next holds
    obtain ⟨small, others⟩ := List.forall_mem_cons.mp inFrame
    have read : vm.code (vm.ip + 1) = reg := head
    rw [List.length_cons, pushElements, nextByte_bind, read, bind_of_ok (getVar_register small _), List.map_cons,
      pushAll]
    have called := call_run host.listPush [list, register vm reg] { vm with ip := vm.ip + 1 }
    change _ = (library host.listPush [list, register vm reg] (storeOf vm)).map _ at called
    cases ran : library host.listPush [list, register vm reg] (storeOf vm) with
    | error stop =>
      rw [ran] at called
      rw [register_withIp, bind_of_error called]
      rfl
    | ok result =>
      rw [ran] at called
      rw [register_withIp, bind_of_ok called]
      refine (@ih (withStore { vm with ip := vm.ip + 1 } result.2) result.1 others tail).trans ?_
      simp only [Except.ok_bind, Nat.add_comm regs.length, ← Nat.add_assoc]
      rfl

theorem onHeap_run {α : Type} (run : Heap → Except Stop (α × Heap)) (vm : Vm World) :
    onHeap run vm = (run vm.heap).map fun result => (result.1, { vm with heap := result.2 }) := by
  rw [onHeap, get_bind, lift_bind]
  cases run vm.heap <;> rfl

/-- The loaded bytes of a tuple or a list literal. -/
private theorem counted_loaded (opcode id : UInt8) (out : UInt8) (regs : List UInt8) :
    (Layout.counted opcode (Format.operands [.register out]) (Format.operands (regs.map .register))).loaded id =
      opcode :: out :: UInt8.ofNat regs.length :: regs := by
  rw [operands_registers]
  rfl

theorem tuple_computes {id size : UInt8} (few : regs.length < 255) (inFrame : InFrame (out :: regs))
    (holds : Holds vm ((layout (.tuple (.register out) size (regs.map .register))).loaded id)) :
    Computes host vm out (layout (.tuple (.register out) size (regs.map .register))).width
      (makeTuple (regs.map (register vm)) (storeOf vm)) := by
  rw [layout, counted_loaded] at holds
  have width : (layout (.tuple (.register out) size (regs.map .register))).width = 3 + regs.length := by
    rw [layout, Layout.width_counted, operands_registers]
    rfl
  obtain ⟨small, others⟩ := List.forall_mem_cons.mp inFrame
  have dst : vm.code (vm.ip + 1) = out := holds 1 (by simp)
  have count : vm.code (vm.ip + 2) = UInt8.ofNat regs.length := holds 2 (by simp)
  have rest : Holds { vm with ip := vm.ip + 3 } regs := holds_drop [_, _, _] holds
  have number : (UInt8.ofNat regs.length).toNat = regs.length := ofNat_toNat_of_lt (by omega)
  rw [Computes, width, step_eq holds.head (show (OP_TUPLE, opTuple) ∈ handlers host by simp [handlers]) (by decide),
    opTuple, nextByte_bind, nextByte_bind]
  simp only [Nat.add_assoc, Nat.reduceAdd, dst, count, number]
  have allocated := onHeap_run (fun heap => heap.owlAlloc (8 * (regs.length + 1))) { vm with ip := vm.ip + 2 }
  rw [makeTuple, List.length_map, storeOf]
  cases ran : vm.heap.owlAlloc (8 * (regs.length + 1)) with
  | error stop =>
    rw [ran] at allocated
    rw [bind_of_error allocated]
    rfl
  | ok result =>
    have word : (UInt8.ofNat regs.length).toUInt64 = UInt64.ofNat regs.length := by
      rw [← UInt64.toNat_inj, UInt8.toNat_toUInt64, number, UInt64.toNat_ofNat_of_lt' (by simp only [UInt64.size]; omega)]
    rw [ran] at allocated
    rw [bind_of_ok allocated, modify_bind, word, Except.ok_bind]
    have filled := @storeElements_run _ { vm with
      ip := vm.ip + 2
      heap := result.2.writeTerm result.1 (UInt64.ofNat regs.length) } regs (result.1 + 8) others rest
    have ends : UInt8.ofNat regs.length ≠ 255 := fun same => by
      rw [same] at number
      exact absurd number.symm (Nat.ne_of_lt few)
    rw [fillTuple, if_neg ends, number, bind_of_ok filled]
    exact store_run small _ { vm with
      heap := writeTerms (result.2.writeTerm result.1 (UInt64.ofNat regs.length)) (result.1 + 8)
        (regs.map (register vm)) } (show vm.ip + 2 + regs.length + 1 = vm.ip + (3 + regs.length) by omega)

theorem list_computes {id size : UInt8} (few : regs.length < 256) (inFrame : InFrame (out :: regs))
    (holds : Holds vm ((layout (.list (.register out) size (regs.map .register))).loaded id)) :
    Computes host vm out (layout (.list (.register out) size (regs.map .register))).width
      (makeList host (regs.map (register vm)) (storeOf vm)) := by
  rw [layout, counted_loaded] at holds
  have width : (layout (.list (.register out) size (regs.map .register))).width = 3 + regs.length := by
    rw [layout, Layout.width_counted, operands_registers]
    rfl
  obtain ⟨small, others⟩ := List.forall_mem_cons.mp inFrame
  have dst : vm.code (vm.ip + 1) = out := holds 1 (by simp)
  have count : vm.code (vm.ip + 2) = UInt8.ofNat regs.length := holds 2 (by simp)
  have rest : Holds { vm with ip := vm.ip + 3 } regs := holds_drop [_, _, _] holds
  have number : (UInt8.ofNat regs.length).toNat = regs.length := ofNat_toNat_of_lt few
  rw [Computes, width, step_eq holds.head (show (OP_LIST, opList host) ∈ handlers host by simp [handlers]) (by decide),
    opList, nextByte_bind, nextByte_bind]
  simp only [Nat.add_assoc, Nat.reduceAdd, dst, count, number]
  refine bind_of_map (@pushElements_run _ host { vm with ip := vm.ip + 2 } regs _ others rest) fun result => ?_
  exact store_run small _ (withStore vm result.2) (show vm.ip + 2 + regs.length + 1 = vm.ip + (3 + regs.length) by omega)

end Counted

end Owl.Language
