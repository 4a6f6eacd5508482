import Owl.Soundness.EmittedFormat
import Owl.Soundness.LoadedCode
import Owl.Proofs.Runtime.Advance

/-! # Links

The items that have been loaded say where each function starts and which function each call and capture
names. A linked machine agrees with them: an entry of the function table belongs to the name with its
number and points behind the last header of that name, and an instruction carries the number of its name.
Loads keep this, and no other step touches what it is about.
-/

namespace Owl.Format

open Owl.Runtime StateExcept

variable {World : Type} {host : Host World}

def widthOf (items : List Layout) : ℕ := (items.map Layout.width).sum

@[simp] theorem widthOf_nil : widthOf [] = 0 := rfl

@[simp] theorem widthOf_cons (item : Layout) (items : List Layout) :
    widthOf (item :: items) = item.width + widthOf items := rfl

@[simp] theorem widthOf_append (first second : List Layout) :
    widthOf (first ++ second) = widthOf first + widthOf second := by
  simp [widthOf]

/-- The last header of a name stands in front of a location. -/
def LastHeader (items : List Layout) (name : Bytes) (location : ℕ) : Prop :=
  ∃ before after, items = before ++ Layout.header name :: after ∧ Layout.header name ∉ after ∧
    location = widthOf before

theorem LastHeader.other {items : List Layout} {name : Bytes} {location : ℕ} {item : Layout}
    (last : LastHeader items name location) (differs : item ≠ .header name) :
    LastHeader (items ++ [item]) name location := by
  obtain ⟨before, after, rfl, none, rfl⟩ := last
  refine ⟨before, after ++ [item], by simp, ?_, rfl⟩
  rw [List.mem_append, List.mem_singleton]
  exact not_or.mpr ⟨none, fun same => differs same.symm⟩

theorem LastHeader.self (items : List Layout) (name : Bytes) :
    LastHeader (items ++ [.header name]) name (widthOf items) :=
  ⟨items, [], rfl, List.not_mem_nil, rfl⟩

/-- Equal function names get equal numbers, different ones different numbers, and a number stays. -/
structure Host.Numbers (host : Host World) (number : World → Bytes → Option ℕ) : Prop where
  interned : ∀ world text, number (host.intern world .functionNames text).2 text =
    some (host.intern world .functionNames text).1
  injective : ∀ world text text' id, number world text = some id → number world text' = some id → text = text'
  kept : ∀ world world' text id, host.Evolves world world' → number world text = some id →
    number world' text = some id

theorem Host.Numbers.reaches {number : World → Bytes → Option ℕ} (numbers : Host.Numbers host number)
    {world world' : World} {text : Bytes} {id : ℕ} (reaches : host.Reaches world world')
    (known : number world text = some id) : number world' text = some id := by
  induction reaches with
  | refl => exact known
  | tail _ last ih => exact numbers.kept _ _ _ _ last ih

/-- An instruction that names a function carries the number of the name, narrowed to a byte. -/
def Layout.Named (number : Bytes → Option ℕ) (id : UInt8) : Layout → Prop
  | .call _ name _ => ∃ k, number name = some k ∧ id = UInt8.ofNat k ∧ k < MAX_FUNCTIONS
  | .capture _ name => ∃ k, number name = some k ∧ id = UInt8.ofNat k
  | _ => True

theorem Layout.Named.mono {number number' : Bytes → Option ℕ} {id : UInt8} {item : Layout}
    (kept : ∀ text k, number text = some k → number' text = some k) (named : item.Named number id) :
    item.Named number' id := by
  cases item with
  | header | plain | counted | loadString => trivial
  | capture dst name =>
    obtain ⟨k, known, same⟩ := named
    exact ⟨k, kept _ _ known, same⟩
  | call dst name operands =>
    obtain ⟨k, known, same⟩ := named
    exact ⟨k, kept _ _ known, same⟩

/-- The machine holds the items as loaded code, and its function table belongs to them. -/
structure Linked (number : World → Bytes → Option ℕ) (taken : World → ℕ → Prop) (items : List Layout)
    (vm : Vm World) : Prop where
  size : vm.codeSize = widthOf items
  owned : vm.Owned taken
  entries : ∀ id, vm.functions id ≠ NO_FUNCTION → ∃ name record, number vm.world name = some id ∧
    vm.statics (vm.functions id) = some record ∧ LastHeader items name record.location
  sites : ∀ before item after, items = before ++ item :: after → ∃ id,
    vm.code.readBytes (widthOf before) item.width = item.loaded id ∧ item.Named (number vm.world) id

section Linked

variable {number : World → Bytes → Option ℕ} {taken : World → ℕ → Prop} {items : List Layout}
  {vm vm' : Vm World} {item : Layout}

theorem linked_new (world : World) (mem : ByteMemory) (arena : ℕ) :
    Linked number taken [] (Vm.new world mem arena) where
  size := rfl
  owned address held := absurd held (by simp [Vm.new])
  entries id filled := absurd rfl filled
  sites before item after split := absurd split (by simp)

variable (numbers : Host.Numbers host number) (fresh : host.Fresh taken)

include numbers fresh

/-- A step that leaves code and function table alone. -/
theorem Linked.quiet (linked : Linked number taken items vm) (code : vm'.code = vm.code)
    (codeSize : vm'.codeSize = vm.codeSize) (functions : vm'.functions = vm.functions)
    (statics : vm'.statics = vm.statics) (world : host.Reaches vm.world vm'.world) :
    Linked number taken items vm' where
  size := codeSize.trans linked.size
  owned address held := fresh.reaches world (linked.owned address (statics ▸ held))
  entries id filled := by
    rw [functions] at filled ⊢
    rw [statics]
    obtain ⟨name, record, known, found, last⟩ := linked.entries id filled
    exact ⟨name, record, numbers.reaches world known, found, last⟩
  sites before item after split := by
    rw [code]
    obtain ⟨id, held, named⟩ := linked.sites before item after split
    exact ⟨id, held, named.mono fun _ _ => numbers.reaches world⟩

omit numbers fresh in
/-- Code is appended for an item that is no header. -/
theorem Linked.append {id : UInt8} (linked : Linked number taken items vm) (body : ∀ name, item ≠ .header name)
    (appended : vm.Appended vm' (item.loaded id)) (named : item.Named (number vm.world) id)
    (functions : vm'.functions = vm.functions) (statics : vm'.statics = vm.statics)
    (world : vm'.world = vm.world) : Linked number taken (items ++ [item]) vm' where
  size := by rw [appended.codeSize, linked.size, Layout.loaded_length]; simp
  owned address held := by
    rw [world]
    exact linked.owned address (statics ▸ held)
  entries k filled := by
    rw [functions] at filled ⊢
    rw [statics, world]
    obtain ⟨name, record, known, found, last⟩ := linked.entries k filled
    exact ⟨name, record, known, found, last.other (body name)⟩
  sites before other after split := by
    rw [world]
    rcases List.eq_nil_or_concat after with rfl | ⟨middle, last, rfl⟩
    · obtain ⟨rfl, single⟩ := List.append_inj' split rfl
      obtain rfl := List.singleton_inj.mp single
      refine ⟨id, ?_, named⟩
      rw [appended.code, linked.size, ← Layout.loaded_length item id, ByteMemory.readBytes_writeBytes]
    · have inner : items ++ [item] = (before ++ other :: middle) ++ [last] := by simpa using split
      obtain ⟨rfl, -⟩ := List.append_inj' inner rfl
      obtain ⟨k, held, named⟩ := linked.sites before other middle rfl
      have inside : widthOf before + other.width ≤ vm.codeSize := by
        rw [linked.size]
        simp only [widthOf_append, widthOf_cons]
        omega
      refine ⟨k, ?_, named⟩
      rw [← held, appended.code]
      exact ByteMemory.readBytes_congr (ByteMemory.writeBytes_agreeOn (.inl inside))

/-- A function is registered under the number of its name. -/
theorem Linked.publish {loader loader' : Loader World} {id : ℕ} {name : Bytes} {world : World}
    (linked : Linked number taken items loader.vm) (even : loader.codePtr = loader.vm.codeSize)
    (published : Published host id world loader loader') (known : number loader.vm.world name = some id) :
    Linked number taken (items ++ [.header name]) loader'.vm := by
  have reaches : host.Reaches loader.vm.world loader'.vm.world :=
    published.before.trans <| .head (.malloc world) published.after
  refine ⟨?_, fun address held => ?_, fun k filled => ?_, fun before item after split => ?_⟩
  · rw [published.codeSize, linked.size]
    simp [Layout.width, Layout.loaded]
  · rw [published.statics, Function.update_apply] at held
    split at held
    · next same => exact fresh.reaches published.after (same ▸ fresh.used world)
    · exact fresh.reaches reaches (linked.owned address held)
  · rw [published.functions] at filled ⊢
    rw [published.statics]
    by_cases same : k = id
    · subst same
      rw [Function.update_self, Function.update_self]
      refine ⟨name, _, numbers.reaches reaches known, rfl, ?_⟩
      dsimp only
      rw [even, linked.size]
      exact .self items name
    · rw [Function.update_of_ne same] at filled ⊢
      obtain ⟨other, record, numbered, found, last⟩ := linked.entries k filled
      have used : taken world (loader.vm.functions k) :=
        fresh.reaches published.before (linked.owned _ (by rw [found]; rfl))
      have apart : loader.vm.functions k ≠ (host.malloc world).1 := fun equal => fresh.unused world (equal ▸ used)
      refine ⟨other, record, numbers.reaches reaches numbered, ?_, last.other fun equal => same ?_⟩
      · rw [Function.update_of_ne apart, found]
      · obtain rfl := Layout.header.inj equal
        exact Option.some.inj (numbered.symm.trans known)
  · rw [published.code]
    rcases List.eq_nil_or_concat after with rfl | ⟨middle, last, rfl⟩
    · obtain ⟨rfl, single⟩ := List.append_inj' split rfl
      obtain rfl := List.singleton_inj.mp single
      exact ⟨0, rfl, trivial⟩
    · have inner : items ++ [.header name] = (before ++ item :: middle) ++ [last] := by simpa using split
      obtain ⟨rfl, -⟩ := List.append_inj' inner rfl
      obtain ⟨j, held, named⟩ := linked.sites before item middle rfl
      exact ⟨j, held, named.mono fun _ _ => numbers.reaches reaches⟩

theorem request_linked {pool : Pool} {text : Bytes} {loader : Loader World} (linked : Linked number taken items loader.vm) :
    Linked number taken items (asked host pool text loader).vm :=
  linked.quiet numbers fresh rfl rfl rfl rfl (.single (.intern _ pool text))

omit numbers fresh in
theorem append_linked {loader : Loader World} (linked : Linked number taken items loader.vm)
    (even : loader.codePtr = loader.vm.codeSize) (body : ∀ name, item ≠ .header name) (id : UInt8)
    (named : item.Named (number loader.vm.world) id) :
    Linked number taken (items ++ [item]) (append loader (item.loaded id)).vm ∧
      (append loader (item.loaded id)).codePtr = (append loader (item.loaded id)).vm.codeSize := by
  refine ⟨linked.append body ⟨?_, rfl⟩ named rfl rfl rfl, ?_⟩
  · simp only [append, even]
  · simp only [append, even]

/-- Loading an item keeps the machine linked. -/
private theorem load_linked {loader loader' : Loader World} {done : Unit} (linked : Linked number taken items loader.vm)
    (even : loader.codePtr = loader.vm.codeSize) (run : item.load host loader = .ok (done, loader')) :
    Linked number taken (items ++ [item]) loader'.vm ∧ loader'.codePtr = loader'.vm.codeSize := by
  cases item with
  | plain opcode operands =>
    cases run
    exact append_linked linked even (by simp) 0 trivial
  | counted opcode fixed operands =>
    cases run
    exact append_linked linked even (by simp) 0 trivial
  | capture dst name =>
    rw [Layout.load, bind_of_ok (request_run ..)] at run
    cases run
    exact append_linked (request_linked numbers fresh linked) even (by simp) _ ⟨_, numbers.interned _ _, rfl⟩
  | loadString dst content =>
    rw [Layout.load, bind_of_ok (request_run ..)] at run
    split at run
    · cases run
      exact append_linked (request_linked numbers fresh linked) even (by simp) _ trivial
    · cases run
  | call dst name operands =>
    rw [Layout.load, bind_of_ok (request_run ..)] at run
    split at run
    · next small =>
      cases run
      exact append_linked (request_linked numbers fresh linked) even (by simp) _ ⟨_, numbers.interned _ _, rfl, small⟩
    · cases run
  | header name =>
    rw [Layout.load, bind_of_ok (request_run ..)] at run
    split at run
    · next small =>
      have published := publish_published small run
      refine ⟨(request_linked numbers fresh linked).publish numbers fresh even published (numbers.interned _ _), ?_⟩
      rw [published.codePtr, published.codeSize]
      exact even
    · cases run

/-- The loop loads the items of its input one after the other. -/
private theorem loadLoop_linked {loaded : List Layout} (valid : ∀ item ∈ loaded, item.Valid)
    (short : ∀ item ∈ loaded, ∀ pool text, item.text? = some (pool, text) → text.length < 255) :
    ∀ (n : ℕ) (items : List Layout) (loader loader' : Loader World) (done : Unit), (emittedAll loaded).length ≤ n →
      loader.scanner = emittedAll loaded → Linked number taken items loader.vm →
      loader.codePtr = loader.vm.codeSize → loadLoop host n loader = .ok (done, loader') →
      Linked number taken (items ++ loaded.map Layout.cut) loader'.vm := by
  induction loaded with
  | nil =>
    intro n items loader loader' done _ input linked _ run
    have stays : loader' = loader := by
      cases n with
      | zero =>
        cases run
        rfl
      | succ n =>
        have ended : loader.scanner.isEmpty := by rw [input]; rfl
        rw [loadLoop, get_bind, if_pos ended] at run
        cases run
        rfl
    rwa [stays, List.map_nil, List.append_nil]
  | cons item loaded ih =>
    intro n items loader loader' done enough input linked even run
    have nonempty := List.length_pos_iff.mpr (emitted_ne_nil item)
    have all : emittedAll (item :: loaded) = item.emitted ++ emittedAll loaded := rfl
    obtain ⟨here, later⟩ := List.forall_mem_cons.mp valid
    obtain ⟨shortHere, shortLater⟩ := List.forall_mem_cons.mp short
    rw [all, List.length_append] at enough
    obtain ⟨n, rfl⟩ : ∃ m, n = m + 1 := ⟨n - 1, by omega⟩
    have more : ¬ loader.scanner.isEmpty := by simp [input, all, emitted_ne_nil item]
    have fed : feed loader (item.emitted ++ emittedAll loaded) = loader := by rw [feed, ← all, ← input]
    have cut := @loadStep_cut _ host _ here shortHere (emittedAll loaded) loader
    rw [fed] at cut
    rw [loadLoop, get_bind, if_neg more] at run
    obtain ⟨_, middle, one, rest⟩ := bind_eq_ok.mp run
    rw [cut] at one
    obtain ⟨linked', even'⟩ := @load_linked _ _ _ _ items _ numbers fresh (feed loader (emittedAll loaded))
      _ _ linked even one
    have remaining : middle.scanner = emittedAll loaded := load_sameInput item.cut _ _ _ one
    have finished := ih later shortLater n _ middle loader' done (by omega) remaining linked' even' rest
    rwa [List.append_assoc] at finished

/-- The items of a module are valid, and their texts fit their length byte. -/
structure Readable (items : List Layout) (bytecode : Bytes) : Prop where
  emitted : bytecode = emittedAll items
  valid : ∀ item ∈ items, item.Valid
  short : ∀ item ∈ items, ∀ pool text, item.text? = some (pool, text) → text.length < 255

theorem loadModule_linked {loaded : List Layout} {bytecode : Bytes} {functions : Term}
    (readable : Readable loaded bytecode) (linked : Linked number taken items vm)
    (run : loadModule host bytecode vm = .ok (functions, vm')) :
    Linked number taken (items ++ loaded.map Layout.cut) vm' := by
  rw [loadModule, get_bind] at run
  obtain ⟨⟨_, final⟩, _, lifted, finish⟩ := bind_eq_ok.mp run
  obtain ⟨ran, rfl⟩ := lift_eq_ok.mp lifted
  cases finish
  obtain rfl := readable.emitted
  exact loadLoop_linked numbers fresh readable.valid readable.short _ items (.start host (emittedAll loaded) vm) _ _
    le_rfl rfl linked rfl ran

end Linked

/-- The modules that are loaded on the way from one machine to another, which otherwise leaves code and
function table alone. -/
inductive Loads (host : Host World) : Vm World → List Bytes → Vm World → Prop where
  | none {vm vm' : Vm World} : vm'.code = vm.code → vm'.codeSize = vm.codeSize → vm'.functions = vm.functions →
      vm'.statics = vm.statics → host.Reaches vm.world vm'.world → Loads host vm [] vm'
  | load {vm vm' : Vm World} {bytecode : Bytes} {functions : Term} :
      loadModule host bytecode vm = .ok (functions, vm') → Loads host vm [bytecode] vm'
  | trans {vm middle vm' : Vm World} {first second : List Bytes} : Loads host vm first middle →
      Loads host middle second vm' → Loads host vm (first ++ second) vm'

def LoadsSome (host : Host World) (vm vm' : Vm World) : Prop := ∃ loaded, Loads host vm loaded vm'

instance : Std.Refl (LoadsSome host) := ⟨fun _ => ⟨[], .none rfl rfl rfl rfl .refl⟩⟩

instance : IsTrans (Vm World) (LoadsSome host) := ⟨fun _ _ _ first second => by
  obtain ⟨_, first⟩ := first
  obtain ⟨_, second⟩ := second
  exact ⟨_, first.trans second⟩⟩

/-- What a step does to code and function table is to load modules. -/
theorem step_loads : Preserves (LoadsSome host) (step host) := by
  have keeps : MachineKeeps host (LoadsSome host) :=
    { machine := fun _ _ _ _ _ _ => ⟨[], .none rfl rfl rfl rfl .refl⟩
      world := fun _ _ evolves => ⟨[], .none rfl rfl rfl rfl (.single evolves)⟩
      load := fun _ _ _ _ run => ⟨_, .load run⟩ }
  exact step_keeps keeps

theorem Loads.linked {number : World → Bytes → Option ℕ} {taken : World → ℕ → Prop} {items : List Layout}
    {vm vm' : Vm World} {loaded : List Bytes} (numbers : Host.Numbers host number) (fresh : host.Fresh taken)
    (loads : Loads host vm loaded vm') {modules : List (List Layout)} (readable : List.Forall₂ Readable modules loaded)
    (linked : Linked number taken items vm) : Linked number taken (items ++ modules.flatten.map Layout.cut) vm' := by
  induction loads generalizing items modules with
  | none code codeSize functions statics world =>
    cases readable
    rw [List.flatten_nil, List.map_nil, List.append_nil]
    exact linked.quiet numbers fresh code codeSize functions statics world
  | load run =>
    obtain ⟨module, none, here, ended, rfl⟩ := List.forall₂_cons_right_iff.mp readable
    cases ended
    rw [List.flatten_singleton]
    exact loadModule_linked numbers fresh here linked run
  | @trans _ _ _ first second _ _ ih₁ ih₂ =>
    have both := ih₂ (List.forall₂_drop_append _ _ _ readable) (ih₁ (List.forall₂_take_append _ _ _ readable) linked)
    rwa [List.append_assoc, ← List.map_append, ← List.flatten_append, List.take_append_drop] at both

theorem functionEntry_ok {functionId : UInt8} {function : ℕ} {vm vm' : Vm World}
    (run : functionEntry functionId vm = .ok (function, vm')) :
    vm' = vm ∧ function = vm.functions functionId.toNat := by
  rw [functionEntry, get_bind] at run
  split at run
  · cases run
    exact ⟨rfl, rfl⟩
  · cases run

/-- The function that is found is the entry of the table, after the load if there was one. -/
private theorem loadFunction_ok {functionId : UInt8} {function : ℕ} {vm vm' : Vm World}
    (run : loadFunction host functionId vm = .ok (function, vm')) :
    function = vm'.functions functionId.toNat ∧ function ≠ NO_FUNCTION := by
  obtain ⟨entry, _, looked, run⟩ := bind_eq_ok.mp run
  obtain ⟨rfl, rfl⟩ := functionEntry_ok looked
  split at run
  · next filled =>
    cases run
    exact ⟨rfl, filled⟩
  · rw [get_bind] at run
    obtain ⟨_, vm₁, loaded, run⟩ := bind_eq_ok.mp run
    obtain ⟨again, _, looked, run⟩ := bind_eq_ok.mp run
    obtain ⟨rfl, rfl⟩ := functionEntry_ok looked
    split at run
    · next filled =>
      cases run
      exact ⟨rfl, filled⟩
    · cases run

/-- A name whose number is in the table is undefined, or its module does not load. -/
theorem loadFunction_error {functionId : UInt8} {vm : Vm World} {stop : Stop} (small : functionId.toNat < MAX_FUNCTIONS)
    (run : loadFunction host functionId vm = .error stop) :
    stop = .undefinedFunction ∨ ∃ bytecode, loadModule host bytecode vm = .error stop := by
  have entry (vm : Vm World) : functionEntry functionId vm = .ok (vm.functions functionId.toNat, vm) := by
    rw [functionEntry, get_bind, if_pos small]
    rfl
  rw [loadFunction, bind_of_ok (entry vm)] at run
  split at run
  · cases run
  · rw [get_bind] at run
    generalize moduleOf (host.text vm.world .functionNames functionId.toNat) = moduleName at run
    cases named : loadModuleNamed host moduleName vm with
    | ok result =>
      obtain ⟨_, vm₁⟩ := result
      rw [bind_of_ok named, bind_of_ok (entry vm₁)] at run
      split at run
      · cases run
      · cases run
        exact .inl rfl
    | error reason =>
      rw [bind_of_error named] at run
      cases run
      rw [loadModuleNamed, get_bind] at named
      generalize host.moduleFile vm.world moduleName = file at named
      cases file with
      | none => cases named
      | some bytecode =>
        refine .inr ⟨bytecode, ?_⟩
        change (loadModule host bytecode >>= fun _ => (pure ⟨⟩ : Exec World PUnit)) vm = _ at named
        cases loaded : loadModule host bytecode vm with
        | ok result =>
          rw [bind_of_ok loaded] at named
          cases named
        | error other =>
          rw [bind_of_error loaded] at named
          cases named
          rfl

private theorem enter_location {vm vm' : Vm World} {function : ℕ} {arity retReg : UInt8} {done : Unit}
    {record : StaticFunction}
    (found : vm.statics function = some record) (run : (do
      modify fun vm => { vm with currentFunction := function }
      setupNextStackframe function arity retReg
      let location ← locationOf function
      modify fun vm => { vm with ip := location } : Exec World Unit) vm = .ok (done, vm')) :
    vm'.ip = record.location := by
  rw [modify_bind] at run
  obtain ⟨_, vm₁, entered, run⟩ := bind_eq_ok.mp run
  obtain ⟨location, vm₂, located, finish⟩ := bind_eq_ok.mp run
  rw [locationOf_run] at located
  cases located
  cases finish
  rw [setupNextStackframe, get_bind] at entered
  split at entered
  · cases entered
  · obtain ⟨_, vm₃, passed, finish⟩ := bind_eq_ok.mp entered
    obtain ⟨registers, rfl⟩ := passArguments_effect _ _ _ _ _ _ passed
    cases finish
    simp only [Vm.setFrame, found]

/-- A call goes on at the entry of the table. -/
theorem opCall_entry {vm vm' : Vm World} {done : Unit} (run : opCall host vm = .ok (done, vm')) :
    vm'.functions (vm.code (vm.ip + 2)).toNat ≠ NO_FUNCTION ∧
      ∀ record, vm'.statics (vm'.functions (vm.code (vm.ip + 2)).toNat) = some record → vm'.ip = record.location := by
  rw [opCall, nextByte_bind, nextByte_bind, nextByte_bind] at run
  obtain ⟨_, vm₁, safe, run⟩ := bind_eq_ok.mp run
  obtain ⟨function, vm₂, loaded, run⟩ := bind_eq_ok.mp run
  obtain ⟨rfl, filled⟩ := loadFunction_ok loaded
  have tables : vm'.functions = vm₂.functions ∧ vm'.statics = vm₂.statics := by
    obtain ⟨registers, ip, rfl⟩ := enter_effect run
    exact ⟨rfl, rfl⟩
  refine ⟨by rwa [tables.1], fun record found => enter_location ?_ run⟩
  rwa [tables.1, tables.2] at found

/-- A capture stores the entry of the table. -/
theorem opCapture_entry {vm vm' : Vm World} {done : Unit} (run : opCapture host vm = .ok (done, vm')) :
    vm'.functions (vm.code (vm.ip + 2)).toNat ≠ NO_FUNCTION ∧
      (vm'.frames vm'.currentFrame).registers (vm.code (vm.ip + 1)).toNat =
        tagAs (UInt64.ofNat (vm'.functions (vm.code (vm.ip + 2)).toNat)) .function := by
  rw [opCapture, nextByte_bind, nextByte_bind] at run
  obtain ⟨function, vm₂, loaded, run⟩ := bind_eq_ok.mp run
  obtain ⟨rfl, filled⟩ := loadFunction_ok loaded
  obtain ⟨_, vm₃, stored, finish⟩ := bind_eq_ok.mp run
  rw [setReg_run] at stored
  split at stored
  · cases stored
  · cases stored
    cases finish
    refine ⟨filled, ?_⟩
    simp only [Vm.setFrame, Frame.setRegister, Function.update_self]

end Owl.Format
