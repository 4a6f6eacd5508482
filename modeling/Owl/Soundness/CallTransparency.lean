import Owl.Proofs.Runtime.Ordinary
import Owl.Soundness.CollectorValues

/-! # Calls are transparent to the caller

Between a call and the return that matches it the machine works above the frame of the caller. An
instruction stores to no frame below the one that is executed, calls and returns move by one frame, and a
collection is taken to preserve what live registers stand for. So the caller finds its registers as it left
them, apart from the one that the call names.
-/

namespace Owl.Runtime

open StateExcept

variable {World : Type} {host : Host World} {arena : ℕ} {vm vm' : Vm World} {done : Unit}

/-- The registers of frames above the current one are clear. -/
def Vm.Cleared (vm : Vm World) : Prop := ∀ i, vm.currentFrame < i → ∀ j, vm.register i j = 0

/-- Only registers of the frame that is executed have changed. -/
structure SameFrames (vm vm' : Vm World) : Prop where
  currentFrame : vm'.currentFrame = vm.currentFrame
  others : ∀ i, i ≠ vm.currentFrame → vm'.frames i = vm.frames i
  retAddress : (vm'.frames vm.currentFrame).retAddress = (vm.frames vm.currentFrame).retAddress
  retRegister : (vm'.frames vm.currentFrame).retRegister = (vm.frames vm.currentFrame).retRegister

theorem SameFrames.of_eq (frames : vm'.frames = vm.frames) (currentFrame : vm'.currentFrame = vm.currentFrame) :
    SameFrames vm vm' :=
  ⟨currentFrame, fun _ _ => by rw [frames], by rw [frames], by rw [frames]⟩

instance : Std.Refl (@SameFrames World) := ⟨fun _ => .of_eq rfl rfl⟩

instance : IsTrans (Vm World) SameFrames := ⟨fun _ _ _ first second => by
  have same := first.currentFrame
  refine ⟨second.currentFrame.trans same, fun i other => ?_, ?_, ?_⟩
  · exact (second.others i (by rwa [same])).trans (first.others i other)
  · exact (same ▸ second.retAddress).trans first.retAddress
  · exact (same ▸ second.retRegister).trans first.retRegister⟩

private theorem setReg_sameFrames (reg : UInt8) (term : Term) :
    Preserves SameFrames (setReg reg term : Exec World Unit) := by
  intro vm _ vm' run
  rw [setReg_run] at run
  split at run
  · contradiction
  · cases run
    refine ⟨rfl, fun i other => ?_, ?_, ?_⟩
    · exact Function.update_of_ne other _ _
    · simp [Vm.setFrame, Frame.setRegister]
    · simp [Vm.setFrame, Frame.setRegister]

theorem loadKeeps_frames (host : Host World) :
    LoadKeeps host fun vm vm' => vm'.frames = vm.frames ∧ vm'.currentFrame = vm.currentFrame where
  code _ _ _ := ⟨rfl, rfl⟩
  world _ _ := ⟨rfl, rfl⟩
  record _ _ := ⟨rfl, rfl⟩
  push args := by
    intro vm _ vm' run
    obtain ⟨_, _, -, -, -, rfl⟩ := call_eq_ok.mp run
    exact ⟨rfl, rfl⟩
  entry _ _ := ⟨rfl, rfl⟩

instance : Std.Refl fun vm vm' : Vm World => vm'.frames = vm.frames ∧ vm'.currentFrame = vm.currentFrame :=
  ⟨fun _ => ⟨rfl, rfl⟩⟩

instance : IsTrans (Vm World) fun vm vm' => vm'.frames = vm.frames ∧ vm'.currentFrame = vm.currentFrame :=
  ⟨fun _ _ _ first second => ⟨second.1.trans first.1, second.2.trans first.2⟩⟩

private theorem accessKeeps_sameFrames (host : Host World) : AccessKeeps host SameFrames where
  ip _ _ := .of_eq rfl rfl
  setReg := setReg_sameFrames
  world _ _ _ := .of_eq rfl rfl
  heap _ _ := .of_eq rfl rfl
  load bytecode := (loadModule_keeps (loadKeeps_frames host) bytecode).mono fun _ _ same => .of_eq same.1 same.2

/-- Registers of live frames may have changed. -/
structure SameStack (live : ℕ) (vm vm' : Vm World) : Prop where
  currentFrame : vm'.currentFrame = vm.currentFrame
  above : ∀ i, live < i → vm'.frames i = vm.frames i
  retAddress : ∀ i, (vm'.frames i).retAddress = (vm.frames i).retAddress
  retRegister : ∀ i, (vm'.frames i).retRegister = (vm.frames i).retRegister

instance (live : ℕ) : Std.Refl (@SameStack World live) := ⟨fun _ => ⟨rfl, fun _ _ => rfl, fun _ => rfl, fun _ => rfl⟩⟩

instance (live : ℕ) : IsTrans (Vm World) (SameStack live) := ⟨fun _ _ _ first second =>
  ⟨second.currentFrame.trans first.currentFrame, fun i dead => (second.above i dead).trans (first.above i dead),
    fun i => (second.retAddress i).trans (first.retAddress i),
    fun i => (second.retRegister i).trans (first.retRegister i)⟩⟩

private theorem SameStack.setRegisters (vm : Vm World) {live i : ℕ} (inside : i ≤ live) (frame : Frame)
    (retAddress : frame.retAddress = (vm.frames i).retAddress)
    (retRegister : frame.retRegister = (vm.frames i).retRegister) : SameStack live vm (vm.setFrame i frame) where
  currentFrame := rfl
  above k dead := Function.update_of_ne (by omega) _ _
  retAddress k := by
    by_cases same : k = i
    · simp [Vm.setFrame, same, retAddress]
    · simp [Vm.setFrame, same]
  retRegister k := by
    by_cases same : k = i
    · simp [Vm.setFrame, same, retRegister]
    · simp [Vm.setFrame, same]

private theorem copyRegister_sameStack {live i : ℕ} (inside : i ≤ live) (j : ℕ) :
    Preserves (SameStack live) (copyRegister host i j) := by
  refine .get_bind fun vm _ vm' run => ?_
  split at run
  · obtain ⟨copied, _, copying, finish⟩ := bind_eq_ok.mp run
    obtain ⟨heap, -, rfl⟩ := onHeap_ok copying
    cases finish
    exact IsTrans.trans _ { vm with heap } _ ⟨rfl, fun _ _ => rfl, fun _ => rfl, fun _ => rfl⟩
      (.setRegisters { vm with heap } inside ((vm.frames i).setRegister j copied) rfl rfl)
  · cases run
    exact Std.Refl.refl vm

private theorem forFrom_sameStack {live : ℕ} {action : ℕ → Exec World Unit}
    (each : ∀ i ≤ live, Preserves (SameStack live) (action i)) :
    ∀ n start, start + n ≤ live + 1 → Preserves (SameStack live) (forFrom action start n)
  | 0, _, _ => .pure ()
  | n + 1, start, inside => .bind (each start (by omega)) fun _ =>
      forFrom_sameStack each n (start + 1) (by omega)

theorem gcCollect_sameStack (run : gcCollect host vm = .ok (done, vm')) : SameStack vm.currentFrame vm vm' := by
  rw [gcCollect, modify_bind, get_bind] at run
  have each : ∀ i ≤ vm.currentFrame, Preserves (SameStack vm.currentFrame)
      (forFrom (copyRegister host i) 0 REGISTER_COUNT) := fun i inside =>
    forFrom_keeps (copyRegister_sameStack inside) _ _
  have scanned := forFrom_sameStack each _ _ (by simp) _ _ _ run
  exact ⟨scanned.currentFrame, scanned.above, scanned.retAddress, scanned.retRegister⟩

/-- A collection at this point, if there is one, preserves what the live registers stand for. -/
def Vm.CollectionKeeps (host : Host World) (vm : Vm World) : Prop :=
  vm.Collects → ∀ ip vm', gcCollect host { vm with ip } = .ok ((), vm') → vm.KeepsValues vm'

/-- The heap is large enough for what is allocated. -/
structure Heap.Bounded (heap : Heap) : Prop where
  size : 2 ≤ heap.size
  roomy : heap.Roomy

theorem Heap.Bounded.allocPtr {heap : Heap} (bounded : heap.Bounded) : heap.allocPtr ≤ heap.toSpace + heap.size := by
  have := bounded.size
  have := bounded.roomy
  unfold Heap.Roomy at this
  omega

theorem Heap.Stays.bounded {heap heap' : Heap} (stays : heap.Stays heap') (bounded : heap.Bounded) : heap'.Bounded :=
  ⟨stays.size ▸ bounded.size, stays.roomy bounded.roomy⟩

variable {keeps : Prop}

/-- Only registers of live frames have changed, and under the condition they stand for the same values. -/
structure Undisturbed (keeps : Prop) (vm vm' : Vm World) : Prop extends SameStack vm.currentFrame vm vm' where
  values : keeps → vm.KeepsValues vm'

theorem Undisturbed.trans {vm₁ : Vm World} (first : Undisturbed keeps vm vm₁) (second : Undisturbed keeps vm₁ vm') :
    Undisturbed keeps vm vm' where
  toSameStack := IsTrans.trans _ _ _ first.toSameStack (first.currentFrame ▸ second.toSameStack)
  values kept i live j inside value denotes :=
    second.values kept i (first.currentFrame ▸ live) j inside value (first.values kept i live j inside value denotes)

private theorem Undisturbed.of_frames (frames : vm'.frames = vm.frames) (currentFrame : vm'.currentFrame = vm.currentFrame)
    (grows : vm.heap.Grows vm'.heap) (bounded : vm.heap.Bounded) : Undisturbed keeps vm vm' where
  currentFrame := currentFrame
  above _ _ := by rw [frames]
  retAddress _ := by rw [frames]
  retRegister _ := by rw [frames]
  values _ i _ j _ value denotes := by
    rw [Vm.register, frames]
    exact grows.denotes bounded.allocPtr denotes

private theorem gcCollect_undisturbed (collects : vm.Collects) {ip : ℕ}
    (run : gcCollect host { vm with ip } = .ok (done, vm')) : Undisturbed (vm.CollectionKeeps host) vm vm' where
  currentFrame := (gcCollect_sameStack run).currentFrame
  above := (gcCollect_sameStack run).above
  retAddress := (gcCollect_sameStack run).retAddress
  retRegister := (gcCollect_sameStack run).retRegister
  values kept := kept collects ip vm' run

private theorem loadFunction_undisturbed {functionId : UInt8} {function : ℕ} (bounded : vm.heap.Bounded)
    (run : loadFunction host functionId vm = .ok (function, vm')) : Undisturbed keeps vm vm' := by
  obtain ⟨frames, currentFrame⟩ :=
    loadFunction_keeps (loadModule_keeps (loadKeeps_frames host)) functionId _ _ _ run
  exact .of_frames frames currentFrame (loadFunction_calm host _ _ _ _ run).grows bounded

/-- What a step leaves of the frames below the one that it executes or enters. -/
structure Carries (keeps : Prop) (vm vm' : Vm World) : Prop where
  values : keeps → ∀ i < vm'.currentFrame, ∀ j < REGISTER_COUNT, ∀ value,
    vm.heap.Denotes (.term (vm.register i j)) value → vm'.heap.Denotes (.term (vm'.register i j)) value
  retAddress : ∀ i ≤ vm.currentFrame, (vm'.frames i).retAddress = (vm.frames i).retAddress
  retRegister : ∀ i ≤ vm.currentFrame, (vm'.frames i).retRegister = (vm.frames i).retRegister
  cleared : vm.Cleared → vm'.Cleared

/-- An instruction that stays in its frame and adds to the heap. -/
theorem SameFrames.carries (same : SameFrames vm vm') (grows : vm.heap.Grows vm'.heap) (bounded : vm.heap.Bounded) :
    Carries keeps vm vm' where
  values _ i below j _ value denotes := by
    rw [same.currentFrame] at below
    rw [Vm.register, same.others i (Nat.ne_of_lt below)]
    exact grows.denotes bounded.allocPtr denotes
  retAddress i _ := by
    by_cases here : i = vm.currentFrame
    · exact here ▸ same.retAddress
    · rw [same.others i here]
  retRegister i _ := by
    by_cases here : i = vm.currentFrame
    · exact here ▸ same.retRegister
    · rw [same.others i here]
  cleared clear i dead j := by
    rw [same.currentFrame] at dead
    rw [Vm.register, same.others i (Nat.ne_of_gt dead)]
    exact clear i dead j

theorem Undisturbed.carries {vm₁ : Vm World} (first : Undisturbed keeps vm vm₁) (second : Carries keeps vm₁ vm')
    (bound : vm'.currentFrame ≤ vm.currentFrame + 1) : Carries keeps vm vm' where
  values kept i below j inside value denotes :=
    second.values kept i below j inside value (first.values kept i (by omega) j inside value denotes)
  retAddress i live := (second.retAddress i (first.currentFrame ▸ live)).trans (first.retAddress i)
  retRegister i live := (second.retRegister i (first.currentFrame ▸ live)).trans (first.retRegister i)
  cleared clear := second.cleared fun i dead j => by
    rw [first.currentFrame] at dead
    rw [Vm.register, first.above i dead]
    exact clear i dead j

/-- A call enters the next frame, which remembers where it returns to. -/
structure Calls (keeps : Prop) (vm vm' : Vm World) (resume retReg : ℕ) : Prop extends Carries keeps vm vm' where
  currentFrame : vm'.currentFrame = vm.currentFrame + 1
  resumes : (vm'.frames vm'.currentFrame).retAddress = resume
  returns : (vm'.frames vm'.currentFrame).retRegister = retReg

private theorem enter_calls {function : ℕ} {arity retReg : UInt8}
    (run : (do
      modify fun vm => { vm with currentFunction := function }
      setupNextStackframe function arity retReg
      let location ← locationOf function
      modify fun vm => { vm with ip := location } : Exec World Unit) vm = .ok (done, vm')) :
    Calls keeps vm vm' (vm.ip + arity.toNat + 1) retReg.toNat := by
  obtain ⟨registers, location, rfl⟩ := enter_effect run
  have below {i : ℕ} (lower : i ≤ vm.currentFrame) : i ≠ vm.currentFrame + 1 := by omega
  refine ⟨⟨fun _ i lower j _ value denotes => ?_, fun i live => ?_, fun i live => ?_, fun clear i dead j => ?_⟩, rfl,
    ?_, ?_⟩
  · rw [Vm.register]
    dsimp only at lower ⊢
    rw [Function.update_of_ne (below (Nat.le_of_lt_succ lower))]
    exact denotes
  · dsimp only
    rw [Function.update_of_ne (below live)]
  · dsimp only
    rw [Function.update_of_ne (below live)]
  · rw [Vm.register]
    dsimp only at dead ⊢
    rw [Function.update_of_ne (Nat.ne_of_gt dead)]
    exact clear i (by omega) j
  · dsimp only
    rw [Function.update_self]
  · dsimp only
    rw [Function.update_self]

theorem Undisturbed.calls {vm₁ : Vm World} {resume retReg : ℕ} (first : Undisturbed keeps vm vm₁)
    (second : Calls keeps vm₁ vm' resume retReg) : Calls keeps vm vm' resume retReg where
  toCarries := first.carries second.toCarries (by rw [second.currentFrame, first.currentFrame])
  currentFrame := by rw [second.currentFrame, first.currentFrame]
  resumes := second.resumes
  returns := second.returns

private theorem opCall_calls (opcode : vm.code vm.ip = OP_CALL) (bounded : vm.heap.Bounded)
    (run : opCall host vm = .ok (done, vm')) : Calls (vm.CollectionKeeps host) vm vm'
      (vm.ip + (4 + (vm.code (vm.ip + 3)).toNat)) (vm.code (vm.ip + 1)).toNat := by
  have resume := opCall_retAddress run
  rw [opCall, nextByte_bind, nextByte_bind, nextByte_bind] at run
  obtain ⟨_, vm₁, safe, run⟩ := bind_eq_ok.mp run
  obtain ⟨function, vm₂, loaded, run⟩ := bind_eq_ok.mp run
  have stays := gcSafepoint_stays host _ _ _ safe
  have safepoint : Undisturbed (vm.CollectionKeeps host) vm vm₁ := by
    rw [gcSafepoint_run] at safe
    split at safe
    · next collects => exact gcCollect_undisturbed (.inr ⟨opcode, collects⟩) safe
    · cases safe
      exact .of_frames rfl rfl (.refl vm.heap) bounded
  have calls := (safepoint.trans (loadFunction_undisturbed (stays.bounded bounded) loaded)).calls (enter_calls run)
  exact ⟨calls.toCarries, calls.currentFrame, resume, calls.returns⟩

private theorem opCallLocal_calls (run : opCallLocal vm = .ok (done, vm')) :
    Calls keeps vm vm' (vm.ip + (4 + (vm.code (vm.ip + 3)).toNat)) (vm.code (vm.ip + 1)).toNat := by
  have resume := opCallLocal_retAddress run
  rw [opCallLocal, nextByte_bind, nextByte_bind] at run
  obtain ⟨function, vm₁, read, run⟩ := bind_eq_ok.mp run
  cases getVar_state read
  rw [nextByte_bind] at run
  split at run
  · cases run
  · have calls : Calls keeps _ _ _ _ := enter_calls run
    exact ⟨⟨calls.values, calls.retAddress, calls.retRegister, calls.cleared⟩, calls.currentFrame, resume, calls.returns⟩

/-- A return goes back to the frame below, stores there what it returns and clears the frame that it leaves. -/
structure Returns (vm vm' : Vm World) : Prop where
  currentFrame : vm'.currentFrame + 1 = vm.currentFrame
  ip : vm'.ip = (vm.frames vm.currentFrame).retAddress
  heap : vm'.heap = vm.heap
  retAddress : ∀ i, (vm'.frames i).retAddress = (vm.frames i).retAddress
  retRegister : ∀ i, (vm'.frames i).retRegister = (vm.frames i).retRegister
  registers : ∀ i j, vm'.register i j = if i = vm.currentFrame then 0
    else if i = vm'.currentFrame ∧ j = (vm.frames vm.currentFrame).retRegister then vm.register vm.currentFrame 0
    else vm.register i j

private theorem opReturn_returns (run : opReturn vm = .ok (done, vm')) : Returns vm vm' := by
  rw [opReturn, get_bind] at run
  split at run
  · cases run
  · next inside =>
    have called : vm.currentFrame ≠ 0 := fun none => by simp [none] at inside
    cases run
    refine ⟨?_, rfl, rfl, fun i => ?_, fun i => ?_, fun i j => ?_⟩
    · simp only [Vm.setFrame]
      omega
    · simp only [Vm.setFrame, Frame.setRegister, Function.update_apply]
      grind
    · simp only [Vm.setFrame, Frame.setRegister, Function.update_apply]
      grind
    · by_cases top : i = vm.currentFrame
      · simp [Vm.register, Vm.setFrame, top]
      · by_cases caller : i = vm.currentFrame - 1
        · subst caller
          simp [Vm.register, Vm.setFrame, Frame.setRegister, top, Function.update_apply]
        · simp [Vm.register, Vm.setFrame, top, caller]

theorem Returns.carries (returns : Returns vm vm') : Carries keeps vm vm' where
  values _ i below j _ value denotes := by
    have := returns.currentFrame
    rw [returns.heap, returns.registers, if_neg (by omega), if_neg (by omega)]
    exact denotes
  retAddress i _ := returns.retAddress i
  retRegister i _ := returns.retRegister i
  cleared clear i dead j := by
    have := returns.currentFrame
    rw [returns.registers]
    split
    · rfl
    · rw [if_neg (by omega)]
      exact clear i (by omega) j

private theorem opGcCollect_undisturbed (opcode : vm.code vm.ip = OP_GC_COLLECT)
    (run : opGcCollect host vm = .ok (done, vm')) :
    ∃ vm₁, Undisturbed (vm.CollectionKeeps host) vm vm₁ ∧ SameFrames vm₁ vm' ∧ vm'.heap = vm₁.heap := by
  rw [opGcCollect, nextByte_bind, get_bind] at run
  obtain ⟨_, vm₁, collected, run⟩ := bind_eq_ok.mp run
  rw [get_bind] at run
  obtain ⟨_, vm₂, stored, moved⟩ := bind_eq_ok.mp run
  have same := setReg_sameFrames _ _ _ _ _ stored
  have heap : vm₂.heap = vm₁.heap := by
    rw [setReg_run] at stored
    split at stored
    · contradiction
    · cases stored
      rfl
  cases moved
  exact ⟨vm₁, gcCollect_undisturbed (.inl opcode) collected,
    ⟨same.currentFrame, same.others, same.retAddress, same.retRegister⟩, heap⟩

/-- How a step moves between frames. -/
inductive Moves (keeps : Prop) (vm vm' : Vm World) : Prop where
  | enter (opcode : vm.code vm.ip = OP_CALL ∨ vm.code vm.ip = OP_CALL_LOCAL)
      (calls : Calls keeps vm vm' (vm.ip + (4 + (vm.code (vm.ip + 3)).toNat)) (vm.code (vm.ip + 1)).toNat)
  | leave (opcode : vm.code vm.ip = OP_RETURN) (returns : Returns vm vm')
  | stay (plain : ¬ (vm.code vm.ip = OP_CALL ∨ vm.code vm.ip = OP_CALL_LOCAL ∨ vm.code vm.ip = OP_RETURN))
      (carries : Carries keeps vm vm') (currentFrame : vm'.currentFrame = vm.currentFrame)

theorem step_moves (bounded : vm.heap.Bounded) (run : step host vm = .ok ((), vm')) :
    Moves (vm.CollectionKeeps host) vm vm' := by
  by_cases special : Special (vm.code vm.ip)
  · rcases step_cases run with ⟨opcode, ran⟩ | ⟨opcode, ran⟩ | ⟨opcode, ran⟩ | ⟨opcode, ran⟩ | ⟨plain, -⟩
    · exact .enter (.inl opcode) (opCall_calls opcode bounded ran)
    · exact .leave opcode (opReturn_returns ran)
    · exact .enter (.inr opcode) (opCallLocal_calls ran)
    · obtain ⟨vm₁, undisturbed, same, heap⟩ := opGcCollect_undisturbed opcode ran
      have currentFrame : vm'.currentFrame = vm.currentFrame := same.currentFrame.trans undisturbed.currentFrame
      have stays := opGcCollect_stays host _ _ _ ran
      refine .stay (by rw [opcode]; decide) (undisturbed.carries (same.carries (heap ▸ .refl vm₁.heap) ?_) (by omega))
        currentFrame
      exact heap ▸ stays.bounded bounded
    · exact absurd special plain
  · obtain ⟨handler, member, ran⟩ := step_handler run
    have same := handlers_keep (accessKeeps_sameFrames host) _ member special _ _ _ ran
    have calm := handlers_calm host _ member special _ _ _ ran
    exact .stay (fun moves => special (by simp [Special]; tauto)) (same.carries calm.grows bounded) same.currentFrame

theorem Moves.carries (moves : Moves keeps vm vm') : Carries keeps vm vm' := by
  cases moves with
  | enter _ calls => exact calls.toCarries
  | leave _ returns => exact returns.carries
  | stay _ carries _ => exact carries

private theorem step_bounded (bounded : vm.heap.Bounded) (run : step host vm = .ok ((), vm')) : vm'.heap.Bounded := by
  refine Heap.Stays.bounded ?_ bounded
  rcases step_cases run with ⟨-, ran⟩ | ⟨-, ran⟩ | ⟨-, ran⟩ | ⟨-, ran⟩ | ⟨-, calm⟩
  · exact (opCall_ok ran).2.1
  · rw [(opReturn_ok host ran).2]
    exact (Heap.Fills.refl _).stays
  · exact (opCallLocal_ok host ran).2.stays
  · exact opGcCollect_stays host _ _ _ ran
  · exact calm.grows.stays

/-- What the machine above a frame leaves of it, and of where the frame above it returns to. -/
structure Above (caller vm : Vm World) (resume retReg : ℕ) : Prop where
  deeper : caller.currentFrame < vm.currentFrame
  values : ∀ i ≤ caller.currentFrame, ∀ j < REGISTER_COUNT, ∀ value,
    caller.heap.Denotes (.term (caller.register i j)) value → vm.heap.Denotes (.term (vm.register i j)) value
  resumes : (vm.frames (caller.currentFrame + 1)).retAddress = resume
  returns : (vm.frames (caller.currentFrame + 1)).retRegister = retReg

theorem Calls.above {resume retReg : ℕ} (calls : Calls keeps vm vm' resume retReg) (kept : keeps) :
    Above vm vm' resume retReg where
  deeper := by rw [calls.currentFrame]; exact Nat.lt_succ_self _
  values i live := calls.values kept i (by rw [calls.currentFrame]; exact Nat.lt_succ_of_le live)
  resumes := calls.currentFrame ▸ calls.resumes
  returns := calls.currentFrame ▸ calls.returns

theorem Above.step {caller : Vm World} {resume retReg : ℕ} (above : Above caller vm resume retReg)
    (carries : Carries keeps vm vm') (kept : keeps) (deeper : caller.currentFrame < vm'.currentFrame) :
    Above caller vm' resume retReg where
  deeper := deeper
  values i live j inside value denotes :=
    carries.values kept i (live.trans_lt deeper) j inside value (above.values i live j inside value denotes)
  resumes := (carries.retAddress _ above.deeper).trans above.resumes
  returns := (carries.retRegister _ above.deeper).trans above.returns

/-- The machine stays above the frame of the caller, and its collections preserve values. -/
def Inside (host : Host World) (caller vm : Vm World) : Prop :=
  caller.currentFrame < vm.currentFrame ∧ vm.CollectionKeeps host

theorem Run.bounded {condition : Vm World → Prop} {start : Vm World} (run : Run host condition start vm)
    (bounded : start.heap.Bounded) : vm.heap.Bounded :=
  run.invariant bounded fun _ _ _ one before => step_bounded before one

theorem Run.cleared {condition : Vm World → Prop} {start : Vm World} (run : Run host condition start vm)
    (bounded : start.heap.Bounded) (cleared : start.Cleared) : vm.Cleared := by
  induction run with
  | refl => exact cleared
  | tail before last ih => exact (step_moves (Run.bounded before bounded) last.2).carries.cleared ih

theorem Run.above {caller start : Vm World} {resume retReg : ℕ} (run : Run host (Inside host caller) start vm)
    (bounded : start.heap.Bounded) (above : Above caller start resume retReg)
    (deeper : caller.currentFrame < vm.currentFrame) : Above caller vm resume retReg := by
  induction run with
  | refl => exact above
  | tail before last ih =>
    have carries := (step_moves (Run.bounded before bounded) last.2).carries
    exact (ih last.1.1).step carries last.1.2 deeper

theorem Loaded.clear (loaded : Loaded host arena vm) : vm.heap.Bounded ∧ vm.Cleared := by
  induction loaded with
  | new world mem =>
    exact ⟨⟨by simp [Vm.new, Heap.init], Nat.le_succ_of_le (Nat.le_add_right _ _)⟩, fun _ _ _ => rfl⟩
  | load _ run ih =>
    have calm := loadModule_calm host _ _ _ _ run
    obtain ⟨frames, currentFrame⟩ := loadModule_keeps (loadKeeps_frames host) _ _ _ _ run
    refine ⟨calm.grows.stays.bounded ih.1, fun i dead j => ?_⟩
    rw [Vm.register, frames]
    exact ih.2 i (currentFrame ▸ dead) j

theorem Started.clear (started : Started host arena vm) : vm.heap.Bounded ∧ vm.Cleared := by
  obtain ⟨loadedVm, functionName, loaded, entered⟩ := started
  have clear := loaded.clear
  rw [enterFunction, get_bind] at entered
  split at entered
  · cases entered
  · cases entered
    exact clear

/-- After a call and the return that matches it, the machine is at the byte after the last operand of the call,
in the frame of the caller. Every register stands for what it stood for before, except the one that the call
names, which holds what the callee returned; and the frames above are clear. -/
theorem call_transparent {start entered returning after : Vm World} (started : Started host arena start)
    (run : Run host (fun _ => True) start vm)
    (opcode : vm.code vm.ip = OP_CALL ∨ vm.code vm.ip = OP_CALL_LOCAL) (keeps : vm.CollectionKeeps host)
    (enters : step host vm = .ok ((), entered)) (body : Run host (Inside host vm) entered returning)
    (matching : returning.currentFrame = vm.currentFrame + 1) (returns : returning.code returning.ip = OP_RETURN)
    (leaves : step host returning = .ok ((), after)) :
    after.ip = vm.ip + (4 + (vm.code (vm.ip + 3)).toNat) ∧ after.currentFrame = vm.currentFrame ∧
    (∀ i ≤ vm.currentFrame, ∀ j < REGISTER_COUNT, ¬ (i = vm.currentFrame ∧ j = (vm.code (vm.ip + 1)).toNat) →
      ∀ value, vm.heap.Denotes (.term (vm.register i j)) value → after.heap.Denotes (.term (after.register i j)) value) ∧
    after.register vm.currentFrame (vm.code (vm.ip + 1)).toNat = returning.register returning.currentFrame 0 ∧
    after.Cleared := by
  obtain ⟨bounded, cleared⟩ := started.clear
  have cleared := run.cleared bounded cleared
  have bounded := run.bounded bounded
  have calls : Calls (vm.CollectionKeeps host) vm entered (vm.ip + (4 + (vm.code (vm.ip + 3)).toNat))
      (vm.code (vm.ip + 1)).toNat := by
    cases step_moves bounded enters with
    | enter _ calls => exact calls
    | leave other _ =>
      rw [other] at opcode
      exact absurd opcode (by decide)
    | stay plain _ _ => exact absurd (opcode.imp_right .inl) plain
  have enteredBounded := step_bounded bounded enters
  have above := body.above enteredBounded (calls.above keeps) (by omega)
  have leaving : Returns returning after := by
    cases step_moves (body.bounded enteredBounded) leaves with
    | enter other _ =>
      rw [returns] at other
      exact absurd other (by decide)
    | leave _ leaving => exact leaving
    | stay plain _ _ => exact absurd (.inr (.inr returns)) plain
  have frame : after.currentFrame = vm.currentFrame := by
    have := leaving.currentFrame
    omega
  have resumes := above.resumes
  have names := above.returns
  rw [← matching] at resumes names
  refine ⟨leaving.ip.trans resumes, frame, fun i live j inside other value denotes => ?_, ?_, ?_⟩
  · rw [leaving.heap, leaving.registers, if_neg (by omega), if_neg fun both => other ?_]
    · exact above.values i live j inside value denotes
    · exact ⟨both.1.trans frame, both.2.trans names⟩
  · rw [leaving.registers, if_neg (by omega), if_pos ⟨frame.symm, names.symm⟩]
  · exact (leaving.carries : Carries True _ _).cleared (body.cleared enteredBounded (calls.cleared cleared))

/-- Collections of settled machines whose live values are whole and exact preserve values. -/
private theorem Vm.Settled.collectionKeeps {graph : Finset Object} (surrounds : host.Surrounds arena)
    (settled : vm.Settled host arena True graph) (whole : vm.Collects → vm.Whole) (exact : vm.Collects → vm.Exact) :
    vm.CollectionKeeps host := by
  intro collects ip vm' run
  rcases gcCollect_scanned surrounds (settled.withIp ip) (whole collects) with ⟨-, stopped⟩ |
    ⟨result, finished, scanned⟩
  · rw [run] at stopped
    cases stopped
  · rw [run] at finished
    cases finished
    have keeps : Vm.KeepsValues { vm with ip } vm' :=
      scanned.keepsValues surrounds (settled.withIp ip) (exact collects)
    exact keeps

/-- Orderly runs above a frame whose collections find exact values are runs of the kind that calls need. -/
theorem Run.inside {start caller : Vm World} {graph : Finset Object} (surrounds : host.Surrounds arena)
    (library : host.Library arena) (settled : start.Settled host arena True graph)
    (run : Run host (fun vm => caller.currentFrame < vm.currentFrame ∧ vm.Orderly ∧ (vm.Collects → vm.Exact)) start vm) :
    Run host (Inside host caller) start vm ∧ ∃ graph, vm.Settled host arena True graph := by
  induction run with
  | refl => exact ⟨.refl, graph, settled⟩
  | tail _ last ih =>
    obtain ⟨inside, middle, settled⟩ := ih
    obtain ⟨⟨deeper, orderly, exact⟩, one⟩ := last
    exact ⟨inside.tail ⟨⟨deeper, settled.collectionKeeps surrounds orderly.whole exact⟩, one⟩,
      step_settled surrounds library settled orderly one⟩

/-- `fn f() { gc_collect() }  fn main() { let a = (1, 2)  f()  a }`. -/
def collectBelow : Compiler.ModuleDef where
  name := bytes "M"
  functions := [
    { name := bytes "f", args := [], body := [.apply none (bytes "gc_collect") []] },
    { name := bytes "main"
      args := []
      body := [.let (bytes "a") (.tuple [.int (bytes "1"), .int (bytes "2")]), .apply none (bytes "f") [],
        .ident (bytes "a")] }]

/-- The pair of the caller survives the collection in the callee. -/
theorem call_transparent_collecting : ∃ start vm after : Vm Tables, Started referenceHost 4096 start ∧
    Run referenceHost (fun _ => True) start vm ∧ Run referenceHost (fun _ => True) vm after ∧
    vm.heap.toSpace ≠ after.heap.toSpace ∧
    ∃ value, vm.heap.Denotes (.term (vm.register 1 1)) value ∧ after.heap.Denotes (.term (after.register 1 1)) value := by
  have ran : ((launch (bytecodeOf collectBelow) (bytes "M.main\\0") 4096).toOption).any fun start =>
      (runWhere referenceHost (Vm.OrderlyWithin 3) 4 start).any fun vm =>
        (step referenceHost vm).toOption.any fun entered =>
          (runWhere referenceHost (fun inside => vm.currentFrame < inside.currentFrame ∧ inside.OrderlyWithin 3 ∧
              (inside.Collects → inside.ExactWithin 3)) 1 entered.2).any fun returning =>
            (step referenceHost returning).toOption.any fun after =>
              vm.code vm.ip = OP_CALL ∧ vm.OrderlyWithin 3 ∧ ¬ vm.Collects ∧ vm.currentFrame = 1 ∧
              returning.currentFrame = vm.currentFrame + 1 ∧ returning.code returning.ip = OP_RETURN ∧
              (vm.code (vm.ip + 1)).toNat ≠ 1 ∧ (vm.heap.decode 3 (.term (vm.register 1 1))).isSome ∧
              vm.heap.toSpace ≠ after.2.heap.toSpace := by
    decide +kernel
  simp only [Option.any_eq_true, decide_eq_true_eq] at ran
  obtain ⟨start, launched, vm, run, ⟨_, entered⟩, enters, returning, body, ⟨_, after⟩, leaves, opcode, within, idle, frame,
    matching, returns, other, read, swapped⟩ := ran
  have enters := Except.toOption_eq_some.mp enters
  have leaves := Except.toOption_eq_some.mp leaves
  have started := launch_started (Except.toOption_eq_some.mp launched)
  have orderly := (runWhere_run run).mono fun _ => Vm.OrderlyWithin.orderly
  obtain ⟨graph, settled⟩ := orderly.settled referenceHost_surrounds referenceHost_library started
  obtain ⟨graph', settled'⟩ :=
    step_settled referenceHost_surrounds referenceHost_library settled within.orderly enters
  have inside : Run referenceHost (Inside referenceHost vm) entered returning :=
    (Run.inside referenceHost_surrounds referenceHost_library settled' ((runWhere_run body).mono fun _ meets =>
      ⟨meets.1, meets.2.1.orderly, fun collects => (meets.2.2 collects).exact⟩)).1
  have whole : Run referenceHost (fun _ => True) start vm := orderly.mono fun _ _ => trivial
  obtain ⟨-, -, values, -, -⟩ := call_transparent started whole (.inl opcode) (fun collects => absurd collects idle)
    enters inside matching returns leaves
  obtain ⟨value, read⟩ := Option.isSome_iff_exists.mp read
  refine ⟨start, vm, after, started, whole, ?_, swapped, value, ⟨3, read⟩, ?_⟩
  · exact .head ⟨trivial, enters⟩ ((inside.mono fun _ _ => trivial).tail ⟨trivial, leaves⟩)
  · exact values 1 frame.ge 1 (by decide) (fun both => other both.2.symm) value ⟨3, read⟩

end Owl.Runtime
