import Owl.Proofs.Runtime.Ordinary
import Owl.Model.Runtime.ReferenceHost

/-! # Loading only appends

A load advances its own write pointer and the shared size of the code. Each round of the loader counts
the bytes that it writes, so the two agree between rounds, and whatever is loaded or executed later, the
bytes below the size stay. A header registers its function at the write pointer, where the bytes of
its body follow.
-/

namespace Owl.Runtime

open StateExcept

variable {World : Type} {host : Host World} {arena : ℕ}

def Host.Reaches (host : Host World) : World → World → Prop := Relation.ReflTransGen host.Evolves

/-- The allocator does not hand out a block that is in use, and function records stay in use. -/
structure Host.Fresh (host : Host World) (taken : World → ℕ → Prop) : Prop where
  unused : ∀ world, ¬ taken world (host.malloc world).1
  used : ∀ world, taken (host.malloc world).2 (host.malloc world).1
  kept : ∀ world world' address, host.Evolves world world' → taken world address → taken world' address

theorem Host.Fresh.reaches {taken : World → ℕ → Prop} {world world' : World} {address : ℕ}
    (fresh : host.Fresh taken) (reaches : host.Reaches world world') (used : taken world address) :
    taken world' address := by
  induction reaches with
  | refl => exact used
  | tail _ last ih => exact fresh.kept _ _ _ last ih

/-- Code has been written at the write pointer, and `n` bytes have been counted. -/
structure Wrote (host : Host World) (written : Bytes) (n : ℕ) (loader loader' : Loader World) : Prop where
  scanner : loader'.scanner <:+ loader.scanner
  codePtr : loader'.codePtr = loader.codePtr + written.length
  code : loader'.vm.code = ByteMemory.writeBytes loader.vm.code loader.codePtr written
  codeSize : loader'.vm.codeSize = loader.vm.codeSize + n
  functions : loader'.vm.functions = loader.vm.functions
  statics : loader'.vm.statics = loader.vm.statics
  world : host.Reaches loader.vm.world loader'.vm.world

theorem Wrote.trans {first second : Bytes} {m n : ℕ} {loader middle loader' : Loader World}
    (left : Wrote host first m loader middle) (right : Wrote host second n middle loader') :
    Wrote host (first ++ second) (m + n) loader loader' where
  scanner := right.scanner.trans left.scanner
  codePtr := by rw [right.codePtr, left.codePtr, List.length_append, Nat.add_assoc]
  code := by rw [right.code, left.code, left.codePtr, ByteMemory.writeBytes_append]
  codeSize := by rw [right.codeSize, left.codeSize, Nat.add_assoc]
  functions := right.functions.trans left.functions
  statics := right.statics.trans left.statics
  world := left.world.trans right.world

/-- Every successful run writes `n` bytes and counts none. -/
def Writes {α : Type} (host : Host World) (n : ℕ) (prog : LoadM World α) : Prop :=
  ∀ loader a loader', prog loader = .ok (a, loader') →
    ∃ written : Bytes, written.length = n ∧ Wrote host written 0 loader loader'

/-- Every successful run counts `n` bytes more than it writes. -/
def Owing {α : Type} (host : Host World) (n : ℕ) (prog : LoadM World α) : Prop :=
  ∀ loader a loader', prog loader = .ok (a, loader') →
    ∃ written, Wrote host written (written.length + n) loader loader'

section Calculus

variable {α β : Type} {m n : ℕ}

theorem Writes.bind {prog : LoadM World α} {next : α → LoadM World β} (first : Writes host m prog)
    (rest : ∀ a, Writes host n (next a)) : Writes host (m + n) (prog >>= next) := by
  intro loader b loader' run
  obtain ⟨a, middle, one, two⟩ := bind_eq_ok.mp run
  obtain ⟨left, rfl, wroteLeft⟩ := first _ _ _ one
  obtain ⟨right, rfl, wroteRight⟩ := rest _ _ _ _ two
  exact ⟨left ++ right, List.length_append, wroteLeft.trans wroteRight⟩

theorem Owing.bind {prog : LoadM World α} {next : α → LoadM World β} (first : Writes host m prog)
    (rest : ∀ a, Owing host (n + m) (next a)) : Owing host n (prog >>= next) := by
  intro loader b loader' run
  obtain ⟨a, middle, one, two⟩ := bind_eq_ok.mp run
  obtain ⟨left, rfl, wroteLeft⟩ := first _ _ _ one
  obtain ⟨right, wroteRight⟩ := rest _ _ _ _ two
  have wrote := wroteLeft.trans wroteRight
  refine ⟨left ++ right, ?_⟩
  rwa [List.length_append, show left.length + right.length + n = 0 + (right.length + (n + left.length)) by omega]

theorem Owing.ite {condition : Prop} [Decidable condition] {yes no : LoadM World α} (first : Owing host n yes)
    (second : Owing host n no) : Owing host n (if condition then yes else no) := by
  split
  · exact first
  · exact second

theorem Owing.throw (stop : Stop) : Owing host n (MonadExcept.throw stop : LoadM World α) := by
  intro loader a loader' run
  cases run

end Calculus

theorem Wrote.unchanged (loader : Loader World) (scanner : Bytes) (suffix : scanner <:+ loader.scanner) :
    Wrote host [] 0 loader { loader with scanner } :=
  ⟨suffix, rfl, (ByteMemory.writeBytes_nil ..).symm, rfl, rfl, rfl, .refl⟩

theorem scannerNext_writes : Writes host 0 (scannerNext : LoadM World UInt8) := by
  intro loader _ loader' run
  rw [scannerNext_run] at run
  split at run
  · cases run
  · next byte rest found =>
    cases run
    exact ⟨[], rfl, .unchanged loader rest (found ▸ List.suffix_cons _ rest)⟩

private theorem scannerRead_writes (n : ℕ) : Writes host 0 (scannerRead n : LoadM World Bytes) := by
  intro loader _ loader' run
  rw [scannerRead, get_bind] at run
  split at run
  · cases run
  · cases run
    exact ⟨[], rfl, .unchanged loader _ (List.drop_suffix _ _)⟩

theorem pushCode_writes (ch : UInt8) : Writes host 1 (pushCode ch : LoadM World Unit) := by
  intro loader _ loader' run
  cases run
  exact ⟨[ch], rfl, List.suffix_refl _, rfl, (ByteMemory.writeBytes_singleton ..).symm, rfl, rfl, rfl, .refl⟩

theorem copyBytes_writes : ∀ n, Writes host n (copyBytes n : LoadM World Unit)
  | 0 => by
      intro loader _ loader' run
      cases run
      exact ⟨[], rfl, .unchanged loader _ (List.suffix_refl _)⟩
  | n + 1 => by
      have all : Writes host (0 + (1 + n)) (copyBytes (n + 1) : LoadM World Unit) :=
        scannerNext_writes.bind fun _ => (pushCode_writes _).bind fun _ => copyBytes_writes n
      rwa [show 0 + (1 + n) = n + 1 by omega] at all

theorem internText_writes (pool : Pool) : Writes host 0 (internText host pool) := by
  refine Writes.bind (m := 0) (n := 0) scannerNext_writes fun size =>
    Writes.bind (m := 0) (n := 0) (scannerRead_writes _) fun buffer => ?_
  intro loader _ loader' run
  obtain ⟨text, _, lifted, run⟩ := bind_eq_ok.mp run
  obtain ⟨-, rfl⟩ := lift_eq_ok.mp lifted
  cases run
  exact ⟨[], rfl, List.suffix_refl _, rfl, (ByteMemory.writeBytes_nil ..).symm, rfl, rfl, rfl, .single (.intern _ _ _)⟩

theorem growCode_owing (n : ℕ) : Owing host n (growCode n : LoadM World Unit) := by
  intro loader _ loader' run
  cases run
  exact ⟨[], List.suffix_refl _, rfl, (ByteMemory.writeBytes_nil ..).symm, by simp, rfl, rfl, .refl⟩

/-- What is owed is counted before the rest is written. -/
theorem Owing.grow {α : Type} {n : ℕ} {next : LoadM World α} (rest : Owing host 0 next) :
    Owing host n (growCode n >>= fun _ => next) := by
  intro loader a loader' run
  obtain ⟨_, middle, grown, run⟩ := bind_eq_ok.mp run
  obtain ⟨written, wrote⟩ := rest _ _ _ run
  cases grown
  exact ⟨written, wrote.scanner, wrote.codePtr, wrote.code, by rw [wrote.codeSize]; dsimp only; omega,
    wrote.functions, wrote.statics, wrote.world⟩

theorem copyOperands_owing : ∀ n, Owing host 0 (copyOperands n : LoadM World Unit)
  | 0 => by
      intro loader _ loader' run
      cases run
      exact ⟨[], .unchanged loader _ (List.suffix_refl _)⟩
  | n + 1 => .bind scannerNext_writes fun _ => .bind (pushCode_writes _) fun _ =>
      .grow (copyOperands_owing n)

/-- A function has been registered under an id at the write pointer, in a new block of the allocator. -/
structure Published (host : Host World) (id : ℕ) (world : World) (loader loader' : Loader World) : Prop where
  small : id < MAX_FUNCTIONS
  scanner : loader'.scanner <:+ loader.scanner
  codePtr : loader'.codePtr = loader.codePtr
  code : loader'.vm.code = loader.vm.code
  codeSize : loader'.vm.codeSize = loader.vm.codeSize
  functions : loader'.vm.functions = Function.update loader.vm.functions id (host.malloc world).1
  statics : loader'.vm.statics = Function.update loader.vm.statics (host.malloc world).1
    (some { location := loader.codePtr, name := host.lookupId world .functionNames id })
  before : host.Reaches loader.vm.world world
  after : host.Reaches (host.malloc world).2 loader'.vm.world

/-- A round writes the bytes that it counts, or it registers a function. -/
def Round (host : Host World) (loader loader' : Loader World) : Prop :=
  (∃ written, Wrote host written written.length loader loader') ∨ ∃ id world, Published host id world loader loader'

theorem Owing.round {α : Type} {prog : LoadM World α} (owing : Owing host 0 prog) : Preserves (Round host) prog :=
  fun loader a loader' run => .inl (owing loader a loader' run)

theorem publish_published {id : ℕ} (small : id < MAX_FUNCTIONS) {loader loader' : Loader World} {done : Unit}
    (run : publish host id loader = .ok (done, loader')) : Published host id loader.vm.world loader loader' := by
  rw [publish, get_bind] at run
  obtain ⟨⟨functionList, vm⟩, _, lifted, finish⟩ := bind_eq_ok.mp run
  obtain ⟨pushed, rfl⟩ := lift_eq_ok.mp lifted
  obtain ⟨reply, heap, ran, -, -, rfl⟩ := call_eq_ok.mp pushed
  cases finish
  exact ⟨small, List.suffix_refl _, rfl, rfl, rfl, rfl, rfl, .refl, .single (.routine (by simp [Host.called]) ran)⟩

private theorem header_round : Preserves (Round host) (do
    let id ← internText host .functionNames
    if id < MAX_FUNCTIONS then publish host id else throw .assertion) := by
  intro loader _ loader' run
  obtain ⟨id, middle, interned, run⟩ := bind_eq_ok.mp run
  obtain ⟨written, none, wrote⟩ := internText_writes _ _ _ _ interned
  obtain rfl := List.eq_nil_of_length_eq_zero none
  split at run
  · next small =>
    have published := publish_published small run
    refine .inr ⟨id, middle.vm.world, small, published.scanner.trans wrote.scanner, ?_, ?_, ?_, ?_, ?_, wrote.world,
      published.after⟩
    · rw [published.codePtr, wrote.codePtr, List.length_nil, Nat.add_zero]
    · rw [published.code, wrote.code, ByteMemory.writeBytes_nil]
    · rw [published.codeSize, wrote.codeSize, Nat.add_zero]
    · rw [published.functions, wrote.functions]
    · rw [published.statics, wrote.statics, wrote.codePtr, List.length_nil, Nat.add_zero]
  · cases run

/-- The rest of a round, after the byte that it reads first. -/
private theorem next_round {next : UInt8 → LoadM World Unit} (rest : ∀ ch, Preserves (Round host) (next ch)) :
    Preserves (fun loader loader' => Round host loader loader' ∧ loader'.scanner.length < loader.scanner.length)
      (scannerNext >>= next) := by
  intro loader _ loader' run
  obtain ⟨ch, middle, read, run⟩ := bind_eq_ok.mp run
  have round := rest ch middle _ loader' run
  rw [scannerNext_run] at read
  split at read
  · cases read
  · next remaining found =>
    cases read
    have suffix : remaining <:+ loader.scanner := found ▸ List.suffix_cons ch remaining
    rw [found, List.length_cons]
    rcases round with ⟨written, wrote⟩ | ⟨id, world, published⟩
    · refine ⟨.inl ⟨written, ?_⟩, Nat.lt_succ_of_le wrote.scanner.length_le⟩
      exact { wrote with scanner := wrote.scanner.trans suffix }
    · refine ⟨.inr ⟨id, world, ?_⟩, Nat.lt_succ_of_le published.scanner.length_le⟩
      exact { published with scanner := published.scanner.trans suffix }

/-- Every round is one of the two kinds, and it reads some of the input. -/
theorem loadStep_round : Preserves
    (fun loader loader' => Round host loader loader' ∧ loader'.scanner.length < loader.scanner.length)
    (loadStep host) := by
  refine next_round fun ch => ?_
  have copied (n grown : ℕ) (all : grown = 0 + 1 + n) : Preserves (Round host) (do
      pushCode ch
      copyBytes n
      growCode grown : LoadM World Unit) := by
    subst all
    exact Owing.round (.bind (pushCode_writes _) fun _ => .bind (copyBytes_writes n) fun _ => growCode_owing _)
  have counted (first : UInt8) (n grown : ℕ) (all : grown = 0 + 1 + n + 0 + 1) : Preserves (Round host) (do
      pushCode first
      copyBytes n
      let size ← scannerNext
      pushCode size
      growCode grown
      copyOperands size.toNat : LoadM World Unit) := by
    subst all
    exact Owing.round (.bind (pushCode_writes _) fun _ => .bind (copyBytes_writes n) fun _ =>
      .bind scannerNext_writes fun size => .bind (pushCode_writes _) fun _ => .grow (copyOperands_owing size.toNat))
  refine .ite (Owing.round (.bind (pushCode_writes ch) fun _ => growCode_owing 1)) <| .ite (copied 1 2 rfl) <|
    .ite (copied 2 3 rfl) <| .ite (copied 3 4 rfl) <| .ite (copied 4 5 rfl) <| .ite (counted ch 1 3 rfl) <|
    .ite (counted ch 3 5 rfl) <| .ite ?capture <| .ite header_round <| .ite ?string <|
    .ite (counted OP_CALL_LOCAL 2 4 rfl) <| .ite ?call (.throw _)
  case capture =>
    exact Owing.round (.bind (pushCode_writes _) fun _ => .bind (copyBytes_writes 1) fun _ =>
      .bind (internText_writes _) fun _ => .bind (pushCode_writes _) fun _ => growCode_owing 3)
  case string =>
    exact Owing.round (.bind (pushCode_writes _) fun _ => .bind (copyBytes_writes 1) fun _ =>
      .bind (internText_writes _) fun _ => .ite (.bind (pushCode_writes _) fun _ => growCode_owing 3) (.throw _))
  case call =>
    exact Owing.round (.bind (pushCode_writes _) fun _ => .bind (copyBytes_writes 1) fun _ =>
      .bind (internText_writes _) fun _ => .ite (.bind (pushCode_writes _) fun _ => .bind scannerNext_writes
        fun arity => .bind (pushCode_writes _) fun _ => .grow (copyOperands_owing arity.toNat)) (.throw _))

/-- Any number of rounds. -/
def Rounds (host : Host World) : Loader World → Loader World → Prop :=
  Relation.ReflTransGen fun loader loader' => loadStep host loader = .ok ((), loader')

/-- The loader before the first round. -/
def Loader.start (host : Host World) (bytecode : Bytes) (vm : Vm World) : Loader World where
  scanner := bytecode
  codePtr := vm.codeSize
  functionList := tagAs (UInt64.ofNat host.emptyRrb) .list
  vm := vm

private theorem loadLoop_rounds : ∀ (n : ℕ) (loader loader' : Loader World), loader.scanner.length ≤ n →
    loadLoop host n loader = .ok ((), loader') → Rounds host loader loader' ∧ loader'.scanner = []
  | 0, loader, loader', short, run => by
      cases run
      exact ⟨.refl, List.eq_nil_of_length_eq_zero (Nat.le_zero.mp short)⟩
  | n + 1, loader, loader', short, run => by
      rw [loadLoop, get_bind] at run
      split at run
      · next empty =>
        cases run
        exact ⟨.refl, List.isEmpty_iff.mp empty⟩
      · obtain ⟨_, middle, one, rest⟩ := bind_eq_ok.mp run
        have shorter := (loadStep_round _ _ _ one).2
        obtain ⟨rounds, finished⟩ := loadLoop_rounds n middle loader' (by omega) rest
        exact ⟨.head one rounds, finished⟩

/-- A load is a run of rounds over the whole input. -/
theorem loadModule_rounds {bytecode : Bytes} {vm vm' : Vm World} {functions : Term}
    (run : loadModule host bytecode vm = .ok (functions, vm')) :
    ∃ final, Rounds host (.start host bytecode vm) final ∧ final.scanner = [] ∧ final.functionList = functions ∧
      final.vm = vm' := by
  rw [loadModule, get_bind] at run
  obtain ⟨⟨_, final⟩, _, lifted, finish⟩ := bind_eq_ok.mp run
  obtain ⟨loaded, rfl⟩ := lift_eq_ok.mp lifted
  obtain ⟨rounds, finished⟩ := loadLoop_rounds bytecode.length (.start host bytecode vm) final (Nat.le_refl _) loaded
  cases finish
  exact ⟨final, rounds, finished, rfl, rfl⟩

/-- The code is as before, with some bytes behind it. -/
structure Vm.Appended (vm vm' : Vm World) (written : Bytes) : Prop where
  code : vm'.code = ByteMemory.writeBytes vm.code vm.codeSize written
  codeSize : vm'.codeSize = vm.codeSize + written.length

theorem Vm.Appended.none {vm vm' : Vm World} (code : vm'.code = vm.code) (codeSize : vm'.codeSize = vm.codeSize) :
    vm.Appended vm' [] :=
  ⟨code.trans (ByteMemory.writeBytes_nil ..).symm, codeSize⟩

theorem Vm.Appended.trans {vm middle vm' : Vm World} {first second : Bytes} (left : vm.Appended middle first)
    (right : middle.Appended vm' second) : vm.Appended vm' (first ++ second) where
  code := by rw [right.code, left.code, left.codeSize, ByteMemory.writeBytes_append]
  codeSize := by rw [right.codeSize, left.codeSize, List.length_append, Nat.add_assoc]

theorem Vm.Appended.kept {vm vm' : Vm World} {written : Bytes} (appended : vm.Appended vm' written) {i : ℕ}
    (below : i < vm.codeSize) : vm'.code i = vm.code i := by
  rw [appended.code]
  exact ByteMemory.writeBytes_outside (.inl below)

/-- After a round the write pointer is again at the size of the code. -/
theorem Round.appended {loader loader' : Loader World} (round : Round host loader loader')
    (even : loader.codePtr = loader.vm.codeSize) :
    loader'.codePtr = loader'.vm.codeSize ∧ ∃ written, loader.vm.Appended loader'.vm written := by
  rcases round with ⟨written, wrote⟩ | ⟨id, world, published⟩
  · refine ⟨?_, written, ?_, wrote.codeSize⟩
    · rw [wrote.codePtr, wrote.codeSize, even]
    · rw [wrote.code, even]
  · refine ⟨?_, [], .none published.code published.codeSize⟩
    rw [published.codePtr, published.codeSize, even]

theorem Rounds.appended {loader loader' : Loader World} (rounds : Rounds host loader loader')
    (even : loader.codePtr = loader.vm.codeSize) :
    loader'.codePtr = loader'.vm.codeSize ∧ ∃ written, loader.vm.Appended loader'.vm written := by
  induction rounds with
  | refl => exact ⟨even, [], .none rfl rfl⟩
  | tail _ last ih =>
    obtain ⟨even, first, before⟩ := ih
    obtain ⟨even, second, after⟩ := (loadStep_round _ _ _ last).1.appended even
    exact ⟨even, first ++ second, before.trans after⟩

section Machines

variable {taken : World → ℕ → Prop}

/-- Every function record is a block in use. -/
def Vm.Owned (taken : World → ℕ → Prop) (vm : Vm World) : Prop :=
  ∀ address, (vm.statics address).isSome → taken vm.world address

/-- Code has been appended, and the function records stay. -/
structure Extended (taken : World → ℕ → Prop) (vm vm' : Vm World) : Prop where
  appended : ∃ written, vm.Appended vm' written
  owned : vm.Owned taken → vm'.Owned taken
  records : vm.Owned taken → ∀ address record, vm.statics address = some record → vm'.statics address = some record

instance {taken : World → ℕ → Prop} : Std.Refl (Extended taken) :=
  ⟨fun _ => ⟨⟨[], .none rfl rfl⟩, id, fun _ _ _ => id⟩⟩

instance : IsTrans (Vm World) (Extended taken) := ⟨fun _ _ _ left right => by
  obtain ⟨first, before⟩ := left.appended
  obtain ⟨second, after⟩ := right.appended
  exact ⟨⟨_, before.trans after⟩, right.owned ∘ left.owned, fun owned address record held =>
    right.records (left.owned owned) address record (left.records owned address record held)⟩⟩

variable (fresh : host.Fresh taken)

include fresh

theorem Round.extended {loader loader' : Loader World} (round : Round host loader loader')
    (even : loader.codePtr = loader.vm.codeSize) : Extended taken loader.vm loader'.vm := by
  refine ⟨(round.appended even).2, fun owned address held => ?_, fun owned address record held => ?_⟩
  · rcases round with ⟨written, wrote⟩ | ⟨id, world, published⟩
    · rw [wrote.statics] at held
      exact fresh.reaches wrote.world (owned address held)
    · rw [published.statics, Function.update_apply] at held
      split at held
      · next same => exact fresh.reaches published.after (same ▸ fresh.used world)
      · exact fresh.reaches published.after
          (fresh.kept _ _ _ (.malloc world) (fresh.reaches published.before (owned address held)))
  · rcases round with ⟨written, wrote⟩ | ⟨id, world, published⟩
    · rwa [wrote.statics]
    · have used := fresh.reaches published.before (owned address (by rw [held]; rfl))
      have apart : address ≠ (host.malloc world).1 := fun same => fresh.unused world (same ▸ used)
      rwa [published.statics, Function.update_of_ne apart]

theorem Rounds.extended {loader loader' : Loader World} (rounds : Rounds host loader loader')
    (even : loader.codePtr = loader.vm.codeSize) : Extended taken loader.vm loader'.vm := by
  induction rounds with
  | refl => exact Std.Refl.refl _
  | tail before last ih =>
    exact IsTrans.trans _ _ _ ih ((loadStep_round _ _ _ last).1.extended fresh (Rounds.appended before even).1)

private theorem loadModule_extended (bytecode : Bytes) : Preserves (Extended taken) (loadModule host bytecode) := by
  intro vm functions vm' run
  obtain ⟨final, rounds, -, -, rfl⟩ := loadModule_rounds run
  exact rounds.extended fresh rfl

/-- Besides loads, a step changes neither code nor function records. -/
private theorem machineKeeps_extended : MachineKeeps host (Extended taken) where
  machine _ _ _ _ _ _ := ⟨⟨[], .none rfl rfl⟩, id, fun _ _ _ => id⟩
  world _ _ evolves := ⟨⟨[], .none rfl rfl⟩, fun owned address held =>
    fresh.kept _ _ _ evolves (owned address held), fun _ _ _ => id⟩
  load := loadModule_extended fresh

omit fresh in
private theorem enterFunction_extended (functionName : Bytes) :
    Preserves (Extended taken) (enterFunction host functionName) := by
  refine .get_bind fun vm _ vm' run => ?_
  split at run
  · cases run
  · cases run
    exact ⟨⟨_, rfl, rfl⟩, id, fun _ _ _ => id⟩

end Machines

/-- A module is loaded, a function is entered, or an instruction is executed. -/
inductive Event (host : Host World) (vm vm' : Vm World) : Prop where
  | load {bytecode : Bytes} {functions : Term} : loadModule host bytecode vm = .ok (functions, vm') → Event host vm vm'
  | enter {functionName : Bytes} : enterFunction host functionName vm = .ok ((), vm') → Event host vm vm'
  | step : step host vm = .ok ((), vm') → Event host vm vm'

/-- Any sequence of events. -/
def Events (host : Host World) : Vm World → Vm World → Prop := Relation.ReflTransGen (Event host)

theorem Events.extended {taken : World → ℕ → Prop} (fresh : host.Fresh taken) {vm vm' : Vm World}
    (events : Events host vm vm') : Extended taken vm vm' := by
  induction events with
  | refl => exact Std.Refl.refl vm
  | tail _ last ih =>
    refine IsTrans.trans _ _ _ ih ?_
    cases last with
    | load run => exact loadModule_extended fresh _ _ _ _ run
    | enter run => exact enterFunction_extended _ _ _ _ run
    | step run => exact step_keeps (machineKeeps_extended fresh) _ _ _ run

/-- In every machine that loads and instructions lead to, in whatever order, the code is what has been
written so far and no byte of it changes later, nor does a function record. Between the rounds of any load the
write pointer is at the size of the code, and a function is registered at the address from which on the later
rounds write, its body first. -/
theorem loading_appends {taken : World → ℕ → Prop} (fresh : host.Fresh taken) {world : World} {mem : ByteMemory}
    {vm : Vm World} (reached : Events host (Vm.new world mem arena) vm) :
    (∃ written, vm.code = ByteMemory.writeBytes (fun _ => 0) 0 written ∧ vm.codeSize = written.length) ∧
    (∀ later, Events host vm later → vm.codeSize ≤ later.codeSize ∧
      (∀ i < vm.codeSize, later.code i = vm.code i) ∧
      ∀ address record, vm.statics address = some record → later.statics address = some record) ∧
    ∀ machine bytecode loader, Rounds host (.start host bytecode machine) loader →
      (loader.codePtr = loader.vm.codeSize ∧ ∃ written, machine.Appended loader.vm written) ∧
      ∀ loader', loadStep host loader = .ok ((), loader') →
        loader'.vm.functions = loader.vm.functions ∧ loader'.vm.statics = loader.vm.statics ∨
        ∃ id function name, loader'.vm.functions = Function.update loader.vm.functions id function ∧
          loader'.vm.statics = Function.update loader.vm.statics function (some { location := loader.codePtr, name }) ∧
          ∀ final, Rounds host loader' final →
            ∃ body, final.vm.code = ByteMemory.writeBytes loader.vm.code loader.codePtr body ∧
              final.vm.codeSize = loader.codePtr + body.length := by
  have run := reached.extended fresh
  have owned : vm.Owned taken := run.owned fun address held => absurd held (by simp [Vm.new])
  obtain ⟨written, whole⟩ := run.appended
  refine ⟨⟨written, whole.code, by rw [whole.codeSize]; exact Nat.zero_add _⟩, fun later events => ?_, ?_⟩
  · have extended := events.extended fresh
    obtain ⟨more, appended⟩ := extended.appended
    refine ⟨?_, fun i below => appended.kept below, extended.records owned⟩
    rw [appended.codeSize]
    exact Nat.le_add_right _ _
  · intro machine bytecode loader rounds
    have even := rounds.appended rfl
    refine ⟨even, fun loader' one => ?_⟩
    rcases (loadStep_round _ _ _ one).1 with ⟨written, wrote⟩ | ⟨id, world, published⟩
    · exact .inl ⟨wrote.functions, wrote.statics⟩
    · refine .inr ⟨id, _, _, published.functions, published.statics, fun final rest => ?_⟩
      have here : loader'.vm.codeSize = loader.codePtr := published.codeSize.trans even.1.symm
      obtain ⟨body, appended⟩ := (rest.appended (published.codePtr.trans here.symm)).2
      refine ⟨body, ?_, ?_⟩
      · rw [appended.code, published.code, here]
      · rw [appended.codeSize, here]

private theorem System.routine_world {body : Memory → World → List Term → Allocating Term}
    {memory : Memory} {world : World} {args : List Term} {reply : Reply World}
    (ran : System.routine body memory world args = .ok reply) : reply.world = world := by
  simp only [System.routine, Except.bind_eq_ok, Except.pure_eq_ok] at ran
  obtain ⟨_, _, rfl⟩ := ran
  rfl

/-- The routines of the library leave the world alone, and printing appends a text. -/
private theorem System.evolves_cases {system : System World} {world world' : World}
    (evolves : system.host.Evolves world world') :
    world' = (system.malloc world).2 ∨ (∃ pool text, world' = (system.intern world pool text).2) ∨
      (∃ text, world' = system.print world text) ∨ world' = world := by
  cases evolves with
  | malloc => exact .inl rfl
  | intern _ pool text => exact .inr (.inl ⟨pool, text, rfl⟩)
  | print printed =>
    simp only [System.host, System.owlTermPrint, Except.bind_eq_ok] at printed
    obtain ⟨datum, -, shown⟩ := printed
    split at shown
    · exact .inr (.inr (.inl ⟨_, (Except.pure_eq_ok.mp shown).symm⟩))
    · cases shown
  | routine called ran =>
    simp only [Host.called, System.host, System.routine1, System.routine2, System.routine3, List.mem_cons,
      List.not_mem_nil, or_false] at called
    rcases called with rfl | rfl | rfl | rfl | rfl | rfl | rfl | rfl | rfl | rfl | rfl <;>
      exact .inr (.inr (.inr (System.routine_world ran)))

/-- A system whose allocator never comes back to an address. -/
def freshSystem : System Tables := { referenceSystem with
  malloc := fun tables => (2 ^ 26 + 32 * tables.allocated, { tables with allocated := tables.allocated + 1 }) }

def freshHost : Host Tables := freshSystem.host

/-- What happens to the tables: a block is handed out, a text is interned, or nothing. -/
theorem freshHost_evolves {tables tables' : Tables} (evolves : freshHost.Evolves tables tables') :
    tables' = { tables with allocated := tables.allocated + 1 } ∨
      (∃ pool text, tables' = (tables.intern pool text).2) ∨ tables' = tables := by
  obtain rfl | ⟨pool, text, rfl⟩ | ⟨_, rfl⟩ | rfl := System.evolves_cases evolves
  · exact .inl rfl
  · exact .inr (.inl ⟨pool, text, rfl⟩)
  · exact .inr (.inr rfl)
  · exact .inr (.inr rfl)

theorem freshHost_fresh :
    freshHost.Fresh fun tables address => ∃ k < tables.allocated, address = 2 ^ 26 + 32 * k where
  unused tables := by
    rintro ⟨k, small, same⟩
    simp only [freshHost, System.host, freshSystem] at same
    omega
  used tables := ⟨tables.allocated, Nat.lt_succ_self _, rfl⟩
  kept tables tables' address evolves := by
    have more : tables.allocated ≤ tables'.allocated := by
      obtain rfl | ⟨pool, text, rfl⟩ | rfl := freshHost_evolves evolves
      · exact Nat.le_succ _
      · simp only [Tables.intern]
        split
        · exact Nat.le_refl _
        · cases pool <;> exact Nat.le_refl _
      · exact Nat.le_refl _
    rintro ⟨k, small, rfl⟩
    exact ⟨k, small.trans_le more, rfl⟩

/-- `fn one() { 1 }  fn two() { one() }`. -/
def twoFunctions : Compiler.ModuleDef where
  name := bytes "M"
  functions := [
    { name := bytes "one", args := [], body := [.int (bytes "1")] },
    { name := bytes "two", args := [], body := [.apply none (bytes "one") []] }]

/-- A module is loaded a second time behind its first code. -/
theorem loading_appends_reload : ∃ first second : Vm Tables, Events freshHost (Vm.new .empty (fun _ => 0) 4096) first ∧
    Events freshHost first second ∧ first.codeSize < second.codeSize ∧
    ∀ i < first.codeSize, second.code i = first.code i := by
  have ran : (loadModule freshHost (bytecodeOf twoFunctions) (Vm.new .empty (fun _ => 0) 4096)).toOption.any
      fun first => (loadModule freshHost (bytecodeOf twoFunctions) first.2).toOption.any fun second =>
        first.2.codeSize < second.2.codeSize := by
    decide +kernel
  simp only [Option.any_eq_true, decide_eq_true_eq] at ran
  obtain ⟨⟨functions, first⟩, loaded, ⟨again, second⟩, reloaded, more⟩ := ran
  have start : Events freshHost (Vm.new .empty (fun _ => 0) 4096) first :=
    .single (.load (Except.toOption_eq_some.mp loaded))
  have later : Events freshHost first second := .single (.load (Except.toOption_eq_some.mp reloaded))
  obtain ⟨-, stays, -⟩ := loading_appends freshHost_fresh start
  exact ⟨first, second, start, later, more, (stays second later).2.1⟩

end Owl.Runtime
