import Owl.Proofs.Runtime.Allocation

/-! # What loading changes

The loader writes code, interns texts and publishes functions, and it appends to the list of functions
with the list library. A relation between machines that these respect is respected by loading.
-/

namespace Owl.Runtime

open StateExcept

variable {World : Type} {host : Host World}

/-- What one round of the loader does keeps a relation between loaders. -/
structure RoundKeeps (host : Host World) (relation : Loader World → Loader World → Prop) : Prop where
  scanner : ∀ loader scanner, relation loader { loader with scanner }
  code : ∀ loader codePtr code codeSize, relation loader { loader with
    codePtr
    vm := { loader.vm with code, codeSize } }
  world : ∀ loader world, relation loader { loader with vm := { loader.vm with world } }
  publish : ∀ id < MAX_FUNCTIONS, Preserves relation (publish host id)

theorem scannerNext_run (loader : Loader World) :
    scannerNext loader = match loader.scanner with
      | [] => .error .pastEnd
      | byte :: scanner => .ok (byte, { loader with scanner }) := by
  simp only [scannerNext, get_bind]
  cases loader.scanner <;> rfl

section Rounds

variable {relation : Loader World → Loader World → Prop} (keeps : RoundKeeps host relation)

include keeps

theorem scannerNext_keeps : Preserves relation (scannerNext : LoadM World UInt8) := by
  intro loader _ loader' done
  rw [scannerNext_run] at done
  split at done
  · cases done
  · cases done
    exact keeps.scanner _ _

theorem pushCode_keeps (ch : UInt8) : Preserves relation (pushCode ch : LoadM World Unit) :=
  .modify fun _ => keeps.code _ _ _ _

theorem growCode_keeps (n : ℕ) : Preserves relation (growCode n : LoadM World Unit) :=
  .modify fun _ => keeps.code _ _ _ _

private theorem scannerRead_keeps (n : ℕ) : Preserves relation (scannerRead n : LoadM World Bytes) := by
  refine .get_bind fun loader _ loader' done => ?_
  split at done
  · cases done
  · cases done
    exact keeps.scanner _ _

variable [Std.Refl relation] [IsTrans (Loader World) relation]

theorem copyBytes_keeps : ∀ n, Preserves relation (copyBytes n : LoadM World Unit)
  | 0 => .pure ()
  | n + 1 => .bind (scannerNext_keeps keeps) fun _ => .bind (pushCode_keeps keeps _) fun _ =>
      copyBytes_keeps n

theorem copyOperands_keeps : ∀ n, Preserves relation (copyOperands n : LoadM World Unit)
  | 0 => .pure ()
  | n + 1 => .bind (scannerNext_keeps keeps) fun _ => .bind (pushCode_keeps keeps _) fun _ =>
      .bind (growCode_keeps keeps 1) fun _ => copyOperands_keeps n

theorem internText_keeps (pool : Pool) : Preserves relation (internText host pool) := by
  refine .bind (scannerNext_keeps keeps) fun _ => .bind (scannerRead_keeps keeps _) fun _ =>
    .bind (.lift _) fun _ => .get_bind fun loader _ loader' done => ?_
  cases done
  exact keeps.world _ _

private theorem loadStep_keeps : Preserves relation (loadStep host) := by
  refine .bind (scannerNext_keeps keeps) fun ch => ?_
  have copied (n grown : ℕ) : Preserves relation (do
      pushCode ch
      copyBytes n
      growCode grown : LoadM World Unit) :=
    .bind (pushCode_keeps keeps _) fun _ => .bind (copyBytes_keeps keeps n) fun _ => growCode_keeps keeps grown
  have counted (first : UInt8) (n grown : ℕ) : Preserves relation (do
      pushCode first
      copyBytes n
      let size ← scannerNext
      pushCode size
      growCode grown
      copyOperands size.toNat : LoadM World Unit) :=
    .bind (pushCode_keeps keeps _) fun _ => .bind (copyBytes_keeps keeps n) fun _ => .bind (scannerNext_keeps keeps)
      fun size => .bind (pushCode_keeps keeps _) fun _ => .bind (growCode_keeps keeps grown) fun _ =>
        copyOperands_keeps keeps size.toNat
  refine .ite (.bind (pushCode_keeps keeps _) fun _ => growCode_keeps keeps 1) <| .ite (copied 1 2) <|
    .ite (copied 2 3) <| .ite (copied 3 4) <| .ite (copied 4 5) <| .ite (counted ch 1 3) <|
    .ite (counted ch 3 5) <| .ite ?capture <| .ite ?header <| .ite ?string <|
    .ite (counted OP_CALL_LOCAL 2 4) <| .ite ?call (.throw _)
  case capture =>
    exact .bind (pushCode_keeps keeps _) fun _ => .bind (copyBytes_keeps keeps 1) fun _ =>
      .bind (internText_keeps keeps _) fun _ => .bind (pushCode_keeps keeps _) fun _ => growCode_keeps keeps 3
  case header =>
    refine .bind (internText_keeps keeps _) fun id => ?_
    split
    · next small => exact keeps.publish id small
    · exact .throw _
  case string =>
    exact .bind (pushCode_keeps keeps _) fun _ => .bind (copyBytes_keeps keeps 1) fun _ =>
      .bind (internText_keeps keeps _) fun _ =>
        .ite (.bind (pushCode_keeps keeps _) fun _ => growCode_keeps keeps 3) (.throw _)
  case call =>
    exact .bind (pushCode_keeps keeps _) fun _ => .bind (copyBytes_keeps keeps 1) fun _ =>
      .bind (internText_keeps keeps _) fun _ => .ite (.bind (pushCode_keeps keeps _) fun _ =>
        .bind (scannerNext_keeps keeps) fun arity => .bind (pushCode_keeps keeps _) fun _ =>
          .bind (growCode_keeps keeps 4) fun _ => copyOperands_keeps keeps arity.toNat) (.throw _)

theorem loadLoop_keeps : ∀ n, Preserves relation (loadLoop host n)
  | 0 => .pure ()
  | n + 1 => by
      refine .get_bind fun loader _ loader' done => ?_
      split at done
      · cases done
        exact Std.Refl.refl loader
      · have rest : Preserves relation (do loadStep host; loadLoop host n) :=
          .bind (loadStep_keeps keeps) fun _ => loadLoop_keeps n
        exact rest loader _ loader' done

end Rounds

/-- What the loader does to a machine keeps the relation. -/
structure LoadKeeps (host : Host World) (relation : Vm World → Vm World → Prop) : Prop where
  code : ∀ vm code codeSize, relation vm { vm with code, codeSize }
  world : ∀ vm world, relation vm { vm with world }
  record : ∀ vm record, relation vm { vm with
    world := (host.malloc vm.world).2
    statics := Function.update vm.statics (host.malloc vm.world).1 (some record) }
  push : ∀ args, Preserves relation (call host.listPush args)
  entry : ∀ vm functions, relation vm { vm with functions }

/-- The machines of two loaders are related. -/
def OnVm (relation : Vm World → Vm World → Prop) (loader loader' : Loader World) : Prop :=
  relation loader.vm loader'.vm

section Keeps

variable {relation : Vm World → Vm World → Prop}

instance [Std.Refl relation] : Std.Refl (OnVm relation) := ⟨fun loader => Std.Refl.refl loader.vm⟩

instance [IsTrans (Vm World) relation] : IsTrans (Loader World) (OnVm relation) :=
  ⟨fun _ _ _ first second => IsTrans.trans (r := relation) _ _ _ first second⟩

variable [Std.Refl relation] [IsTrans (Vm World) relation]

theorem LoadKeeps.rounds (keeps : LoadKeeps host relation) : RoundKeeps host (OnVm relation) where
  scanner loader _ := Std.Refl.refl (r := relation) loader.vm
  code _ _ _ _ := keeps.code _ _ _
  world _ _ := keeps.world _ _
  publish id _ := by
    refine .get_bind fun loader _ loader' done => ?_
    obtain ⟨⟨functionList, vm⟩, _, lifted, finish⟩ := bind_eq_ok.mp done
    obtain ⟨pushed, rfl⟩ := lift_eq_ok.mp lifted
    cases finish
    exact IsTrans.trans (r := relation) _ _ _ (keeps.record _ _) <|
      IsTrans.trans (r := relation) _ _ _ (keeps.push _ _ _ _ pushed) (keeps.entry _ _)

theorem loadModule_keeps (keeps : LoadKeeps host relation) (bytecode : Bytes) :
    Preserves relation (loadModule host bytecode) := by
  refine .get_bind fun vm _ vm' done => ?_
  obtain ⟨⟨_, loader⟩, _, lifted, finish⟩ := bind_eq_ok.mp done
  obtain ⟨loaded, rfl⟩ := lift_eq_ok.mp lifted
  cases finish
  exact loadLoop_keeps keeps.rounds _ _ _ _ loaded

end Keeps

section Functions

variable {relation : Vm World → Vm World → Prop} [Std.Refl relation]

private theorem functionEntry_keeps (functionId : UInt8) :
    Preserves relation (functionEntry functionId : Exec World ℕ) := by
  refine .get_bind fun vm _ vm' done => ?_
  split at done
  · cases done
    exact Std.Refl.refl vm
  · cases done

variable [IsTrans (Vm World) relation] (load : ∀ bytecode, Preserves relation (loadModule host bytecode))

include load

private theorem loadModuleNamed_keeps (moduleName : Bytes) : Preserves relation (loadModuleNamed host moduleName) := by
  refine .get_bind fun vm _ vm' done => ?_
  generalize host.moduleFile vm.world moduleName = file at done
  cases file with
  | some bytecode => exact Preserves.discard (load bytecode) vm _ vm' done
  | none =>
    cases done
    exact Std.Refl.refl vm

/-- A function is looked for by loading at most one module. -/
theorem loadFunction_keeps (functionId : UInt8) : Preserves relation (loadFunction host functionId) := by
  refine .bind (functionEntry_keeps _) fun function => .ite (.pure _) ?_
  refine .get_bind fun vm _ vm' done => ?_
  have rest : Preserves relation (do
      loadModuleNamed host (moduleOf (host.text vm.world .functionNames functionId.toNat))
      let function ← functionEntry functionId
      if function ≠ NO_FUNCTION then return function else throw .undefinedFunction) :=
    .bind (loadModuleNamed_keeps load _) fun _ => .bind (functionEntry_keeps _) fun _ =>
      .ite (.pure _) (.throw _)
  exact rest vm _ vm' done

end Functions

end Owl.Runtime
