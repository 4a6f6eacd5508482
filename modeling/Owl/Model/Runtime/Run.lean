import Owl.Model.Runtime.Opcodes
import Mathlib.Logic.Relation

/-! # Runs

A run loads modules into a new machine, enters a function and then executes instructions until one of
them stops it. A condition on the machine before each step selects the runs that a result is about.
-/

namespace Owl.Runtime

variable {World : Type}

/-- A machine into which modules have been loaded. -/
inductive Loaded (host : Host World) (arena : ℕ) : Vm World → Prop where
  | new (world : World) (mem : ByteMemory) : Loaded host arena (Vm.new world mem arena)
  | load {vm vm' : Vm World} {bytecode : Bytes} {functions : Term} : Loaded host arena vm →
      loadModule host bytecode vm = .ok (functions, vm') → Loaded host arena vm'

/-- A machine that is about to execute the call with which a run begins. -/
def Started (host : Host World) (arena : ℕ) (vm : Vm World) : Prop :=
  ∃ loaded functionName, Loaded host arena loaded ∧
    enterFunction host functionName loaded = .ok ((), vm)

/-- One instruction, from a machine that meets the condition. -/
def StepWhere (host : Host World) (condition : Vm World → Prop) (vm vm' : Vm World) : Prop :=
  condition vm ∧ step host vm = .ok ((), vm')

/-- Any number of instructions, each from a machine that meets the condition. -/
def Run (host : Host World) (condition : Vm World → Prop) : Vm World → Vm World → Prop :=
  Relation.ReflTransGen (StepWhere host condition)

variable {host : Host World} {condition : Vm World → Prop}

/-- What every step keeps is kept by a run. -/
theorem Run.invariant {holds : Vm World → Prop} {start vm : Vm World} (run : Run host condition start vm)
    (initial : holds start)
    (kept : ∀ vm vm', condition vm → step host vm = .ok ((), vm') → holds vm → holds vm') : holds vm := by
  induction run with
  | refl => exact initial
  | tail _ last ih => exact kept _ _ last.1 last.2 ih

theorem Run.mono {weaker : Vm World → Prop} {start vm : Vm World} (run : Run host condition start vm)
    (implied : ∀ vm, condition vm → weaker vm) : Run host weaker start vm :=
  Relation.ReflTransGen.mono (fun _ _ one => ⟨implied _ one.1, one.2⟩) _ _ run

/-- Execute `n` instructions, each from a machine that meets the condition. -/
def runWhere (host : Host World) (condition : Vm World → Prop) [DecidablePred condition] :
    ℕ → Vm World → Option (Vm World)
  | 0, vm => some vm
  | n + 1, vm =>
      if condition vm then
        match step host vm with
        | .ok (_, vm) => runWhere host condition n vm
        | .error _ => none
      else none

theorem runWhere_run [DecidablePred condition] : ∀ {n : ℕ} {start vm : Vm World},
    runWhere host condition n start = some vm → Run host condition start vm
  | 0, _, _, done => by
      cases done
      exact .refl
  | n + 1, start, vm, done => by
      rw [runWhere] at done
      split at done
      · next meets =>
        cases stepped : step host start with
        | error stop =>
          rw [stepped] at done
          cases done
        | ok result =>
          rw [stepped] at done
          exact .head ⟨meets, stepped⟩ (runWhere_run done)
      · cases done

end Owl.Runtime
