import Owl.Proofs.Format.Counts
import Owl.Proofs.Format.Encoding
import Owl.Proofs.Format.Loading
import Owl.Model.Runtime.ReferenceHost

/-! # The emitted format loads back

The loader takes a generated module apart item by item, and every text reaches its pool whole, exactly if
all names and literals of the module are shorter than 255 bytes. A longer text is written in full behind
a length that has been narrowed to a byte.
-/

namespace Owl.Format

open Owl.Compiler Owl.Runtime StateExcept

/-- The bytes are those of the items; from the head of any item the loader loads it and stops at the head
of the next one; and its loop loads all of them. -/
def LoadsBack (bytecode : Bytes) (items : List Layout) : Prop :=
  bytecode = emittedAll items ∧ ∀ (World : Type) (host : Host World) (loader : Loader World),
    (∀ before item after, items = before ++ item :: after →
      loadStep host (feed loader (emittedAll (item :: after))) =
        item.load host (feed loader (emittedAll after))) ∧
    ∀ n, bytecode.length ≤ n →
      loadLoop host n (feed loader bytecode) = loadItems host items (feed loader bytecode)

section Short

variable {World : Type} {host : Host World}

theorem emitted_ne_nil (item : Layout) : item.emitted ≠ [] := by
  cases item <;> simp [Layout.emitted]

/-- The input is as before. -/
def SameInput (loader loader' : Loader World) : Prop := loader'.scanner = loader.scanner

instance : Std.Refl (@SameInput World) := ⟨fun _ => rfl⟩

instance : IsTrans (Loader World) SameInput := ⟨fun _ _ _ first second => Eq.trans second first⟩

theorem publish_sameInput (id : ℕ) : Preserves SameInput (publish host id) := by
  refine .get_bind fun loader _ loader' run => ?_
  obtain ⟨_, _, lifted, finish⟩ := bind_eq_ok.mp run
  obtain ⟨-, rfl⟩ := lift_eq_ok.mp lifted
  cases finish
  rfl

theorem request_sameInput (pool : Pool) (text : Bytes) : Preserves SameInput (request host pool text) := by
  refine .get_bind fun loader _ loader' run => ?_
  rw [SameInput, ← (Prod.mk.inj (Except.ok.inj run)).2]

theorem append_sameInput (code : Bytes) :
    Preserves SameInput (modify (append · code) : LoadM World Unit) :=
  .modify fun _ => rfl

/-- Loading an item leaves the input alone. -/
theorem load_sameInput (item : Layout) : Preserves SameInput (item.load host) := by
  cases item with
  | plain opcode operands | counted opcode fixed operands => exact append_sameInput _
  | header name =>
    exact .bind (request_sameInput _ _) fun id => .ite (publish_sameInput id) (.throw _)
  | capture dst name => exact .bind (request_sameInput _ _) fun _ => append_sameInput _
  | loadString dst content | call dst name operands =>
    exact .bind (request_sameInput _ _) fun _ => .ite (append_sameInput _) (.throw _)

private theorem loadLoop_items {items : List Layout} (valid : ∀ item ∈ items, item.Valid)
    (texts : ∀ item ∈ items, ∀ pool text, item.text? = some (pool, text) → text.length < 255 ∧ 0 ∉ text) :
    ∀ (n : ℕ) (loader : Loader World), (emittedAll items).length ≤ n →
      loadLoop host n (feed loader (emittedAll items)) =
        loadItems host items (feed loader (emittedAll items)) := by
  induction items with
  | nil =>
    intro n loader _
    cases n <;> rfl
  | cons item items ih =>
    intro n loader enough
    have nonempty := List.length_pos_iff.mpr (emitted_ne_nil item)
    have all : emittedAll (item :: items) = item.emitted ++ emittedAll items := rfl
    obtain ⟨here, later⟩ := List.forall_mem_cons.mp valid
    obtain ⟨textsHere, textsLater⟩ := List.forall_mem_cons.mp texts
    rw [all, List.length_append] at enough
    obtain ⟨n, rfl⟩ : ∃ m, n = m + 1 := ⟨n - 1, by omega⟩
    have more : ¬ (feed loader (emittedAll (item :: items))).scanner.isEmpty := by
      simp [feed, all, emitted_ne_nil item]
    rw [loadLoop, get_bind, if_neg more, all, loadItems, modify_bind, feed_feed]
    have step : loadStep host _ = _ := loadStep_item here textsHere (emittedAll items) loader
    cases loaded : item.load host (feed loader (emittedAll items)) with
    | error stop => rw [bind_of_error (step.trans loaded), bind_of_error loaded]
    | ok result =>
      obtain ⟨done, loader₁⟩ := result
      rw [bind_of_ok (step.trans loaded), bind_of_ok loaded]
      have input : loader₁.scanner = emittedAll items := load_sameInput item _ _ _ loaded
      have next : loader₁ = feed loader₁ (emittedAll items) := by rw [feed, ← input]
      rw [next]
      exact ih later textsLater n loader₁ (by omega)

end Short

section Long

variable {World : Type} {host : Host World}

/-- The length byte of a long text ends in the middle of the text. -/
theorem internText_long (pool : Pool) {text : Bytes} (long : 255 ≤ text.length) (zeroFree : 0 ∉ text)
    (rest : Bytes) (loader : Loader World) :
    internText host pool (feed loader (Layout.textBytes text ++ rest)) = .error .unterminated := by
  have size : (UInt8.ofNat (text.length + 1)).toNat ≤ text.length := by
    rw [UInt8.toNat_ofNat']
    omega
  have front : text ++ [0] ++ rest =
      text.take (UInt8.ofNat (text.length + 1)).toNat ++
        (text.drop (UInt8.ofNat (text.length + 1)).toNat ++ [0] ++ rest) := by
    rw [List.append_assoc, List.append_assoc, ← List.append_assoc (List.take _ _), List.take_append_drop]
  have taken : (text.take (UInt8.ofNat (text.length + 1)).toNat).length =
      (UInt8.ofNat (text.length + 1)).toNat := List.length_take_of_le size
  have open_ : cString (text.take (UInt8.ofNat (text.length + 1)).toNat) = .error .unterminated :=
    if_neg fun zero => zeroFree (List.mem_of_mem_take zero)
  rw [internText, Layout.textBytes, List.append_assoc, List.cons_append, bind_of_ok (scannerNext_feed ..),
    ← List.append_assoc, front]
  nth_rewrite 1 [← taken]
  rw [bind_of_ok (scannerRead_feed ..), open_]
  rfl

private theorem loadStep_long {item : Layout} {pool : Pool} {text : Bytes} (named : item.text? = some (pool, text))
    (long : 255 ≤ text.length) (zeroFree : 0 ∉ text) (rest : Bytes) (loader : Loader World) :
    loadStep host (feed loader (item.emitted ++ rest)) = .error .unterminated := by
  cases item with
  | plain opcode operands | counted opcode fixed operands => cases named
  | header name =>
    cases named
    rw [loadStep, Layout.emitted, List.cons_append, bind_of_ok (scannerNext_feed ..)]
    change (internText host .functionNames >>= _) _ = _
    rw [bind_of_error (internText_long _ long zeroFree _ _)]
  | capture dst name =>
    cases named
    rw [loadStep, Layout.emitted, List.cons_append, bind_of_ok (scannerNext_feed ..)]
    change (pushCode OP_CAPTURE >>= fun _ => copyBytes [dst].length >>= fun _ =>
      internText host .functionNames >>= _) (feed loader ([dst] ++ (Layout.textBytes text ++ rest))) = _
    rw [bind_of_ok (pushCode_run ..), put_feed, bind_of_ok (copyBytes_feed ..),
      bind_of_error (internText_long _ long zeroFree _ _)]
  | loadString dst content =>
    cases named
    rw [loadStep, Layout.emitted, List.cons_append, bind_of_ok (scannerNext_feed ..)]
    change (pushCode OP_LOAD_STRING >>= fun _ => copyBytes [dst].length >>= fun _ =>
      internText host .internPool >>= _) (feed loader ([dst] ++ (Layout.textBytes text ++ rest))) = _
    rw [bind_of_ok (pushCode_run ..), put_feed, bind_of_ok (copyBytes_feed ..),
      bind_of_error (internText_long _ long zeroFree _ _)]
  | call dst name operands =>
    cases named
    rw [loadStep, Layout.emitted, List.append_assoc, List.cons_append, bind_of_ok (scannerNext_feed ..)]
    change (pushCode OP_CALL >>= fun _ => copyBytes [dst].length >>= fun _ =>
      internText host .functionNames >>= _)
        (feed loader ([dst] ++ (Layout.textBytes text ++ (Layout.countedBytes operands ++ rest)))) = _
    rw [bind_of_ok (pushCode_run ..), put_feed, bind_of_ok (copyBytes_feed ..),
      bind_of_error (internText_long _ long zeroFree _ _)]

end Long

/-- A loader for a new machine. -/
def freshLoader : Loader Tables where
  scanner := []
  codePtr := 0
  functionList := tagAs (UInt64.ofNat emptyRrbAddress) .list
  vm := Vm.new .empty (fun _ => 0) 4096

/-- A host whose lists take no memory. -/
def looseHost : Host Tables :=
  { referenceHost with listPush := fun _ world _ => .ok { result := 0, blocks := [], world } }

private theorem publish_looseHost (id : ℕ) (loader : Loader Tables) : ∃ loaded, publish looseHost id loader = .ok loaded :=
  ⟨_, rfl⟩

/-- In a new machine every item can be loaded. -/
theorem load_freshLoader (item : Layout) (rest : Bytes) :
    ∃ loaded, item.load looseHost (feed freshLoader rest) = .ok loaded := by
  cases item with
  | plain opcode operands | counted opcode fixed operands => exact ⟨_, rfl⟩
  | capture dst name => exact ⟨_, rfl⟩
  | loadString dst content | call dst name operands => exact ⟨_, rfl⟩
  | header name =>
    have small : (looseHost.intern freshLoader.vm.world .functionNames name).1 < MAX_FUNCTIONS :=
      show 1 < 255 by decide
    rw [Layout.load, bind_of_ok (request_feed ..), if_pos small]
    exact publish_looseHost _ _

theorem mem_moduleTexts {module : Module} {item : Layout} {entry : Pool × Bytes}
    (member : item ∈ moduleItems module) (named : item.text? = some entry) : entry ∈ moduleTexts module :=
  List.mem_filterMap.mpr ⟨item, member, named⟩

private theorem LoadsBack.texts_short {bytecode : Bytes} {module : Module}
    (loads : LoadsBack bytecode (moduleItems module)) (zeroFree : ∀ entry ∈ moduleTexts module, 0 ∉ entry.2) :
    ∀ entry ∈ moduleTexts module, entry.2.length < 255 := by
  intro entry member
  by_contra long
  obtain ⟨item, present, named⟩ := List.mem_filterMap.mp member
  obtain ⟨before, after, split⟩ := List.append_of_mem present
  have stopped : loadStep looseHost _ = _ :=
    loadStep_long named (Nat.not_lt.mp long) (zeroFree entry member) (emittedAll after) freshLoader
  obtain ⟨loaded, finished⟩ := load_freshLoader item (emittedAll after)
  have same := (loads.2 Tables looseHost freshLoader).1 before item after split
  exact absurd (stopped.symm.trans (same.trans finished)) (by simp)

/-- A generated module loads back exactly if all its names and literals are shorter than 255 bytes. -/
theorem loadsBack_iff_textsShort {definition : ModuleDef} {module : Module} {bytecode : Bytes}
    (generated : generate definition = .ok module) (emitted : module.emit = .ok bytecode)
    (zeroFree : ∀ entry ∈ moduleTexts module, 0 ∉ entry.2) :
    LoadsBack bytecode (moduleItems module) ↔ ∀ entry ∈ moduleTexts module, entry.2.length < 255 := by
  have counted := generate_counted generated
  have all := moduleEmit_eq_ok counted emitted
  have valid := moduleItems_valid counted
  refine ⟨fun loads => loads.texts_short zeroFree, fun short => ?_⟩
  have texts : ∀ item ∈ moduleItems module, ∀ pool text, item.text? = some (pool, text) →
      text.length < 255 ∧ 0 ∉ text := fun item member pool text named =>
    ⟨short _ (mem_moduleTexts member named), zeroFree _ (mem_moduleTexts member named)⟩
  refine ⟨all, fun World host loader => ⟨fun before item after split => ?_, fun n enough => ?_⟩⟩
  · have member : item ∈ moduleItems module := by simp [split]
    exact loadStep_item (valid item member) (texts item member) _ _
  · rw [all] at enough ⊢
    exact loadLoop_items valid texts n loader enough

/-- `fn f(g) { (g("some text"), f(g)) }`. -/
def shortTexts : ModuleDef where
  name := bytes "M"
  functions := [{
    name := bytes "f"
    args := [bytes "g"]
    body := [.tuple [.apply none (bytes "g") [.str (bytes "some text")],
      .apply none (bytes "f") [.ident (bytes "g")]]] }]

theorem loadsBack_shortTexts : ∃ module bytecode, generate shortTexts = .ok module ∧
    module.emit = .ok bytecode ∧ LoadsBack bytecode (moduleItems module) := by
  refine ⟨_, _, rfl, rfl, (loadsBack_iff_textsShort (show generate shortTexts = _ from rfl) rfl ?_).mpr ?_⟩
  · decide
  · decide

/-- A function that returns a literal of 300 bytes. -/
def longText : ModuleDef where
  name := bytes "M"
  functions := [{ name := bytes "f", args := [], body := [.str (List.replicate 300 97)] }]

set_option maxRecDepth 2000 in
/-- The literal of 300 bytes is taken apart after 45 of them. -/
theorem loadsBack_fails : ¬ ∀ definition module bytecode, generate definition = .ok module →
    module.emit = .ok bytecode → (∀ entry ∈ moduleTexts module, 0 ∉ entry.2) →
    LoadsBack bytecode (moduleItems module) := by
  intro loads
  have long := (loads longText _ _ rfl rfl (by decide +kernel)).texts_short (by decide +kernel)
  exact absurd (long (.internPool, List.replicate 300 97) (by decide +kernel)) (by decide)

end Owl.Format
