import Owl.Proofs.Format.Decoding

/-! # Loading is decoding and linking

The loader may be given any bytes, for `code_load` runs on what a file holds. It gets to the end of them exactly when
they are the bytes of valid packets, which are then the only such packets, and linking their items succeeds; what it
has done to the machine is what linking does.
-/

namespace Owl.Format

open Owl.Compiler Owl.Runtime StateExcept

variable {World : Type} {host : Host World}

theorem Packet.Valid.buffered {packet : Packet} (valid : packet.Valid) {pool : Pool} {text : Bytes}
    (named : packet.item.text? = some (pool, text)) : Packet.Buffered text packet.spare := by
  have buffered := valid.2
  rwa [named] at buffered

/-- What is behind the terminator does not matter. -/
private theorem internText_buffer (pool : Pool) {text spare : Bytes} (buffered : Packet.Buffered text spare) (rest : Bytes)
    (loader : Loader World) : internText host pool (feed loader (Packet.bufferBytes text spare ++ rest)) =
      internText host pool (feed loader (Layout.textBytes text ++ rest)) := by
  obtain ⟨zeroFree, small⟩ := buffered
  have length : (text ++ 0 :: spare).length = text.length + 1 + spare.length := by
    rw [List.length_append, List.length_cons]
    omega
  have size : (UInt8.ofNat (text.length + 1 + spare.length)).toNat = (text ++ 0 :: spare).length := by
    rw [UInt8.toNat_ofNat', Nat.mod_eq_of_lt small, length]
  have read : cString (text ++ 0 :: spare) = .ok (text.takeWhile (· ≠ 0)) := by
    rw [cString, if_pos (by simp), (takeWhile_buffer zeroFree spare).1, takeWhile_zeroFree zeroFree]
  rw [internText_feed pool (by omega), internText, Packet.bufferBytes, List.cons_append,
    bind_of_ok (scannerNext_feed ..), size, bind_of_ok (scannerRead_feed ..), read]
  rfl

private theorem bind_of_eq {σ ε α β : Type} {prog : StateT σ (Except ε) α} {next : α → StateT σ (Except ε) β} {s s' : σ}
    (same : prog s = prog s') : (prog >>= next) s = (prog >>= next) s' := by
  change (prog s >>= fun x => next x.1 x.2) = (prog s' >>= _)
  rw [same]

/-- The rounds that copy a register and then look up a text. -/
private theorem loadStep_copies {ch : UInt8} (member : ch ∈ [OP_CAPTURE, OP_LOAD_STRING, OP_CALL]) (loader : Loader World) :
    ∃ (pool : Pool) (next : ℕ → LoadM World Unit), ∀ dst buffer, loadStep host (feed loader (ch :: dst :: buffer)) =
      (internText host pool >>= next) (feed (put (put loader [ch]) [dst]) buffer) := by
  have copied (pool : Pool) (next : ℕ → LoadM World Unit) (dst : UInt8) (buffer : Bytes) : (do
      pushCode ch
      copyBytes 1
      let id ← internText host pool
      next id : LoadM World Unit) (feed loader (dst :: buffer)) =
        (internText host pool >>= next) (feed (put (put loader [ch]) [dst]) buffer) := by
    rw [bind_of_ok (pushCode_run ..), put_feed]
    exact bind_of_ok (copyBytes_feed [dst] buffer _)
  simp only [List.mem_cons, List.not_mem_nil, or_false] at member
  rcases member with rfl | rfl | rfl
  · refine ⟨.functionNames, fun id => do
      pushCode (UInt8.ofNat id)
      growCode 3, fun dst buffer => ?_⟩
    rw [← copied, loadStep, bind_of_ok (scannerNext_feed ..)]
    rfl
  · refine ⟨.internPool, fun id => do
      if id < 255 then
        pushCode (UInt8.ofNat id)
        growCode 3
      else throw .assertion, fun dst buffer => ?_⟩
    rw [← copied, loadStep, bind_of_ok (scannerNext_feed ..)]
    rfl
  · refine ⟨.functionNames, fun id => do
      if id < MAX_FUNCTIONS then
        pushCode (UInt8.ofNat id)
        let arity ← scannerNext
        pushCode arity
        growCode 4
        copyOperands arity.toNat
      else throw .assertion, fun dst buffer => ?_⟩
    rw [← copied, loadStep, bind_of_ok (scannerNext_feed ..)]
    rfl

theorem loadStep_copied {ch : UInt8} (member : ch ∈ [OP_CAPTURE, OP_LOAD_STRING, OP_CALL]) {text spare : Bytes}
    (buffered : Packet.Buffered text spare) (dst : UInt8) (rest : Bytes) (loader : Loader World) :
    loadStep host (feed loader (ch :: dst :: (Packet.bufferBytes text spare ++ rest))) =
      loadStep host (feed loader (ch :: dst :: (Layout.textBytes text ++ rest))) := by
  obtain ⟨pool, next, same⟩ := @loadStep_copies _ host _ member loader
  rw [same, same]
  exact bind_of_eq (internText_buffer pool buffered rest _)

/-- On the bytes of a packet the loader does what loading its item means. -/
private theorem loadStep_packet {packet : Packet} (valid : packet.Valid) (rest : Bytes) (loader : Loader World) :
    loadStep host (feed loader (packet.bytes ++ rest)) = packet.item.load host (feed loader rest) := by
  have texts (pool : Pool) (text : Bytes) (named : packet.item.text? = some (pool, text)) : text.length < 255 ∧
    0 ∉ text := by
    obtain ⟨zeroFree, small⟩ := valid.buffered named
    exact ⟨by omega, zeroFree⟩
  rw [← loadStep_item valid.1 texts]
  obtain ⟨item, spare⟩ := packet
  cases item with
  | plain opcode operands | counted opcode fixed operands => rfl
  | header name =>
    have front (buffer : Bytes) : loadStep host (feed loader (OP_PUB_FN :: buffer)) = (do
        let id ← internText host .functionNames
        if id < MAX_FUNCTIONS then publish host id else throw .assertion : LoadM World Unit) (feed loader buffer) := by
      rw [loadStep, bind_of_ok (scannerNext_feed ..)]
      rfl
    exact (front _).trans ((bind_of_eq (internText_buffer _ valid.2 rest loader)).trans (front _).symm)
  | capture dst name => exact @loadStep_copied _ host OP_CAPTURE (by decide) _ _ valid.2 dst rest loader
  | loadString dst content => exact @loadStep_copied _ host OP_LOAD_STRING (by decide) _ _ valid.2 dst rest loader
  | call dst name operands =>
    have swapped := @loadStep_copied _ host OP_CALL (by decide) _ _ valid.2 dst (Layout.countedBytes operands ++ rest)
      loader
    simpa only [Packet.bytes, Packet.opcode, Packet.body, Layout.emitted, List.cons_append, List.append_assoc] using swapped

/-- The bytes that a successful run takes from the input, for its result. -/
def Takes {α : Type} (kind : α → Bytes → Prop) (prog : LoadM World α) : Prop :=
  ∀ loader a loader', prog loader = .ok (a, loader') → ∃ taken, kind a taken ∧ loader.scanner = taken ++ loader'.scanner

namespace Takes

variable {α β : Type} {prog : LoadM World α} {next : α → LoadM World β} {kind : β → Bytes → Prop}

theorem bind {first : α → Bytes → Prop} (takes : Takes first prog)
    (rest : ∀ a front, first a front → Takes (fun b taken => kind b (front ++ taken)) (next a)) :
    Takes kind (prog >>= next) := by
  intro loader b loader' done
  obtain ⟨a, middle, one, two⟩ := bind_eq_ok.mp done
  obtain ⟨front, holds, input⟩ := takes loader a middle one
  obtain ⟨taken, holds, rest⟩ := rest a front holds middle b loader' two
  exact ⟨front ++ taken, holds, by rw [input, rest, List.append_assoc]⟩

/-- A part that leaves the input alone. -/
theorem of_sameInput {prog : LoadM World β} (same : Preserves SameInput prog) (nothing : ∀ b, kind b []) :
    Takes kind prog :=
  fun loader b loader' done => ⟨[], nothing b, (same loader b loader' done).symm⟩

theorem after (same : Preserves SameInput prog) (rest : ∀ a, Takes kind (next a)) : Takes kind (prog >>= next) := by
  have quiet : Takes (fun _ taken => taken = []) prog := of_sameInput same fun _ => rfl
  exact .bind quiet fun a _ empty => empty ▸ rest a

theorem mono {kind' : β → Bytes → Prop} {prog : LoadM World β} (takes : Takes kind prog)
    (weaker : ∀ b taken, kind b taken → kind' b taken) : Takes kind' prog := by
  intro loader b loader' done
  obtain ⟨taken, holds, input⟩ := takes loader b loader' done
  exact ⟨taken, weaker b taken holds, input⟩

theorem ite {condition : Prop} [Decidable condition] {yes no : LoadM World β} (first : condition → Takes kind yes)
    (second : ¬ condition → Takes kind no) : Takes kind (if condition then yes else no) := by
  split
  · next holds => exact first holds
  · next fails => exact second fails

theorem throw (stop : Stop) : Takes kind (MonadExcept.throw stop : LoadM World β) := by
  intro loader a loader' done
  cases done

end Takes

theorem pushCode_sameInput (ch : UInt8) : Preserves SameInput (pushCode ch : LoadM World Unit) := .modify fun _ => rfl

theorem growCode_sameInput (n : ℕ) : Preserves SameInput (growCode n : LoadM World Unit) := .modify fun _ => rfl

theorem scannerNext_takes : Takes (fun byte taken => taken = [byte]) (scannerNext : LoadM World UInt8) := by
  intro loader byte loader' done
  rw [scannerNext_run] at done
  split at done
  · cases done
  · next byte' rest input =>
    cases done
    exact ⟨[byte], rfl, input⟩

private theorem scannerRead_takes (n : ℕ) :
    Takes (fun text taken => taken = text ∧ text.length = n) (scannerRead n : LoadM World Bytes) := by
  intro loader text loader' done
  rw [scannerRead, get_bind] at done
  split at done
  · cases done
  · next enough =>
    cases done
    exact ⟨_, ⟨rfl, List.length_take_of_le (not_lt.mp enough)⟩, (List.take_append_drop n _).symm⟩

theorem copyBytes_takes (n : ℕ) : Takes (fun _ taken => taken.length = n) (copyBytes n : LoadM World Unit) := by
  induction n with
  | zero => exact .of_sameInput (.pure ()) fun _ => rfl
  | succ n ih =>
    refine .bind scannerNext_takes fun byte _ same => .after (pushCode_sameInput _) fun _ => ?_
    subst same
    exact ih.mono fun _ taken length => by rw [List.length_append, length, List.length_singleton, Nat.add_comm]

private theorem copyOperands_takes (n : ℕ) : Takes (fun _ taken => taken.length = n)
    (copyOperands n : LoadM World Unit) := by
  induction n with
  | zero => exact .of_sameInput (.pure ()) fun _ => rfl
  | succ n ih =>
    refine .bind scannerNext_takes fun byte _ same => .after (pushCode_sameInput _) fun _ =>
      .after (growCode_sameInput _) fun _ => ?_
    subst same
    exact ih.mono fun _ taken length => by rw [List.length_append, length, List.length_singleton, Nat.add_comm]

/-- Operands behind their number. -/
private theorem countedTail_takes (grown : ℕ) : Takes (fun _ taken => ∃ operands : Bytes, operands.length < 256 ∧
      taken = Layout.countedBytes operands) (do
    let size ← scannerNext
    pushCode size
    growCode grown
    copyOperands size.toNat : LoadM World Unit) := by
  refine .bind scannerNext_takes fun size _ same => .after (pushCode_sameInput _) fun _ =>
    .after (growCode_sameInput _) fun _ loader a loader' done => ?_
  subst same
  obtain ⟨operands, length, input⟩ := copyOperands_takes _ loader a loader' done
  refine ⟨operands, ⟨operands, length ▸ size.toNat_lt, ?_⟩, input⟩
  rw [Layout.countedBytes, ← (size_eq_iff.mp length).2]
  rfl

theorem internText_takes (pool : Pool) : Takes (fun _ taken => ∃ text spare, Packet.Buffered text spare ∧
      taken = Packet.bufferBytes text spare) (internText host pool) := by
  refine .bind scannerNext_takes fun size _ same => .bind (scannerRead_takes _) fun _ found read => ?_
  obtain ⟨rfl, length⟩ := read
  subst same
  by_cases zero : 0 ∈ found
  · obtain ⟨zeroFree, split⟩ := buffer_split zero
    have whole := congrArg List.length split
    rw [List.length_append, List.length_cons, length] at whole
    refine .of_sameInput (.bind (.lift _) fun text => .get_bind fun loader id loader' done => ?_) fun _ =>
      ⟨_, (found.dropWhile (· ≠ 0)).tail, ⟨zeroFree, ?_⟩, ?_⟩
    · cases done
      rfl
    · have := size.toNat_lt
      omega
    · rw [Packet.bufferBytes, ← split, List.append_nil, List.singleton_append, show _ + 1 + _ = size.toNat by omega]
      simp
  · intro loader id loader' done
    rw [cString, if_neg zero] at done
    cases done

/-- A round takes the bytes of a packet. -/
private theorem loadStep_takes : Takes (fun _ taken => ∃ packet : Packet, packet.Valid ∧ taken = packet.bytes)
    (loadStep host) := by
  refine .bind scannerNext_takes fun ch _ same => ?_
  subst same
  have copied (n grown : ℕ) (plain : Layout.plainOperands ch = some n) : Takes (fun _ taken => ∃ packet : Packet,
      packet.Valid ∧ [ch] ++ taken = packet.bytes) (do
        pushCode ch
        copyBytes n
        growCode grown : LoadM World Unit) := by
    refine .after (pushCode_sameInput _) fun _ => .bind (copyBytes_takes n) fun _ operands length =>
      .of_sameInput (growCode_sameInput _) fun _ => ⟨⟨.plain ch operands, []⟩,
        ⟨plain.trans (congrArg some length.symm), rfl⟩, ?_⟩
    rw [List.append_nil]
    rfl
  have counted (n grown : ℕ) (fixed : Layout.fixedOperands ch = some n) : Takes (fun _ taken => ∃ packet : Packet,
      packet.Valid ∧ [ch] ++ taken = packet.bytes) (do
        pushCode ch
        copyBytes n
        let size ← scannerNext
        pushCode size
        growCode grown
        copyOperands size.toNat : LoadM World Unit) := by
    refine .after (pushCode_sameInput _) fun _ => .bind (copyBytes_takes n) fun _ first length =>
      (countedTail_takes grown).mono fun _ taken found => ?_
    obtain ⟨operands, few, rfl⟩ := found
    exact ⟨⟨.counted ch first operands, []⟩, ⟨⟨fixed.trans (congrArg some length.symm), few⟩, rfl⟩, rfl⟩
  refine .ite (fun same => ?_) fun notNone => .ite (fun one => copied 1 2 ?_) fun notOne =>
    .ite (fun two => copied 2 3 ?_) fun notTwo => .ite (fun three => copied 3 4 ?_) fun notThree =>
    .ite (fun four => copied 4 5 ?_) fun _ => .ite (fun member => counted 1 3 (if_pos member)) fun _ =>
    .ite (fun same => counted 3 5 (same ▸ rfl)) fun _ => .ite (fun same => ?_) fun _ => .ite (fun same => ?_) fun _ =>
    .ite (fun same => ?_) fun _ => .ite (fun same => ?_) fun _ => .ite (fun same => ?_) fun _ => .throw _
  · refine .after (pushCode_sameInput _) fun _ => .of_sameInput (growCode_sameInput _) fun _ =>
      ⟨⟨.plain ch [], []⟩, ?_, rfl⟩
    subst same
    exact ⟨rfl, rfl⟩
  · rw [Layout.plainOperands, if_neg notNone, if_pos one]
  · rw [Layout.plainOperands, if_neg notNone, if_neg notOne, if_pos two]
  · rw [Layout.plainOperands, if_neg notNone, if_neg notOne, if_neg notTwo, if_pos three]
  · rw [Layout.plainOperands, if_neg notNone, if_neg notOne, if_neg notTwo, if_neg notThree, if_pos four]
  · subst same
    refine .after (pushCode_sameInput _) fun _ => .bind (copyBytes_takes 1) fun _ first length =>
      .bind (internText_takes _) fun id buffer found => .after (pushCode_sameInput _) fun _ =>
        .of_sameInput (growCode_sameInput _) fun _ => ?_
    obtain ⟨dst, rfl⟩ := List.length_eq_one_iff.mp length
    obtain ⟨text, spare, buffered, rfl⟩ := found
    exact ⟨⟨.capture dst text, spare⟩, ⟨trivial, buffered⟩, by simp [Packet.bytes, Packet.opcode, Packet.body]⟩
  · subst same
    refine .bind (internText_takes _) fun id buffer found => ?_
    obtain ⟨text, spare, buffered, rfl⟩ := found
    refine .ite (fun _ => .of_sameInput (publish_sameInput id) fun _ => ?_) fun _ => .throw _
    exact ⟨⟨.header text, spare⟩, ⟨trivial, buffered⟩, by simp [Packet.bytes, Packet.opcode, Packet.body]⟩
  · subst same
    refine .after (pushCode_sameInput _) fun _ => .bind (copyBytes_takes 1) fun _ first length =>
      .bind (internText_takes _) fun id buffer found => ?_
    obtain ⟨dst, rfl⟩ := List.length_eq_one_iff.mp length
    obtain ⟨text, spare, buffered, rfl⟩ := found
    refine .ite (fun _ => .after (pushCode_sameInput _) fun _ => .of_sameInput (growCode_sameInput _) fun _ => ?_)
      fun _ => .throw _
    exact ⟨⟨.loadString dst text, spare⟩, ⟨trivial, buffered⟩, by simp [Packet.bytes, Packet.opcode, Packet.body]⟩
  · subst same
    exact counted 2 4 rfl
  · subst same
    refine .after (pushCode_sameInput _) fun _ => .bind (copyBytes_takes 1) fun _ first length =>
      .bind (internText_takes _) fun id buffer found => ?_
    obtain ⟨dst, rfl⟩ := List.length_eq_one_iff.mp length
    obtain ⟨text, spare, buffered, rfl⟩ := found
    refine .ite (fun _ => .after (pushCode_sameInput _) fun _ => (countedTail_takes 4).mono fun _ taken found => ?_)
      fun _ => .throw _
    obtain ⟨operands, few, rfl⟩ := found
    exact ⟨⟨.call dst text operands, spare⟩, ⟨few, buffered⟩, by simp [Packet.bytes, Packet.opcode, Packet.body]⟩

/-- A part that does the same in front of every input. -/
def Blind {α : Type} (prog : LoadM World α) : Prop :=
  ∀ loader scanner, prog (feed loader scanner) = (prog loader).map fun result => (result.1, feed result.2 scanner)

theorem Blind.bind {α β : Type} {prog : LoadM World α} {next : α → LoadM World β} (first : Blind prog)
    (rest : ∀ a, Blind (next a)) : Blind (prog >>= next) := by
  intro loader scanner
  change (prog (feed loader scanner) >>= fun x => next x.1 x.2) = (prog loader >>= fun x => next x.1 x.2).map _
  rw [first loader scanner]
  cases prog loader with
  | error stop => rfl
  | ok result => exact rest result.1 result.2 scanner

theorem Blind.ite {α : Type} {condition : Prop} [Decidable condition] {yes no : LoadM World α} (first : Blind yes)
    (second : Blind no) : Blind (if condition then yes else no) := by
  split
  · exact first
  · exact second

private theorem publish_blind (id : ℕ) : Blind (publish host id) := by
  intro loader scanner
  rw [publish, get_bind, get_bind]
  rcases made : host.malloc loader.vm.world with ⟨function, world⟩
  simp only [feed, made, lift_bind]
  cases (call host.listPush _).run _ <;> rfl

private theorem load_blind (item : Layout) : Blind (item.load host) := by
  have request_blind (pool : Pool) (text : Bytes) : Blind (request host pool text) := fun loader scanner => rfl
  have append_blind (code : Bytes) : Blind (modify (append · code) : LoadM World Unit) := fun loader scanner => rfl
  have throw_blind (stop : Stop) : Blind (throw stop : LoadM World Unit) := fun loader scanner => rfl
  cases item with
  | plain opcode operands | counted opcode fixed operands => exact append_blind _
  | header name => exact .bind (request_blind _ _) fun id => .ite (publish_blind id) (throw_blind _)
  | capture dst name => exact .bind (request_blind _ _) fun _ => append_blind _
  | loadString dst content | call dst name operands =>
    exact .bind (request_blind _ _) fun _ => .ite (append_blind _) (throw_blind _)

/-- A round succeeds on the bytes of a valid packet and nothing else. -/
private theorem loadStep_iff (loader loader' : Loader World) : loadStep host loader = .ok ((), loader') ↔
    ∃ packet : Packet, packet.Valid ∧ loader.scanner = packet.bytes ++ loader'.scanner ∧
      packet.item.load host (feed loader []) = .ok ((), feed loader' []) := by
  have onPacket {packet : Packet} (valid : packet.Valid) (input : loader.scanner = packet.bytes ++ loader'.scanner) :
      loadStep host loader = .ok ((), loader') ↔ packet.item.load host (feed loader []) = .ok ((), feed loader' []) := by
    have step := @loadStep_packet _ host _ valid loader'.scanner loader
    rw [show feed loader (packet.bytes ++ loader'.scanner) = loader by rw [← input]; rfl,
      show feed loader loader'.scanner = feed (feed loader []) loader'.scanner from rfl, load_blind] at step
    rw [step]
    cases loaded : packet.item.load host (feed loader []) with
    | error stop => simp [Except.map]
    | ok result =>
      obtain ⟨_, last⟩ := result
      have empty : last = feed last [] := congrArg (feed last) (load_sameInput packet.item _ _ _ loaded)
      constructor
      · intro done
        have same : feed last loader'.scanner = loader' := (Prod.mk.inj (Except.ok.inj done)).2
        rw [← same, feed_feed, ← empty]
      · intro done
        have same : last = feed loader' [] := (Prod.mk.inj (Except.ok.inj done)).2
        rw [same]
        rfl
  constructor
  · intro done
    obtain ⟨_, ⟨packet, valid, rfl⟩, input⟩ := loadStep_takes loader _ _ done
    exact ⟨packet, valid, input, (onPacket valid input).mp done⟩
  · rintro ⟨packet, valid, input, loaded⟩
    exact (onPacket valid input).mpr loaded

private theorem load_leaves {item : Layout} {loader last : Loader World}
    (loaded : item.load host (feed loader []) = .ok ((), last)) :
    feed last [] = last := (congrArg (feed last) (load_sameInput item _ _ _ loaded)).symm

/-- The loop succeeds on the bytes of valid packets and nothing else. -/
private theorem loadLoop_iff {n : ℕ} {loader : Loader World} (enough : loader.scanner.length ≤ n) (loader' : Loader World) :
    loadLoop host n loader = .ok ((), loader') ↔ ∃ packets : List Packet,
      ((∀ packet ∈ packets, packet.Valid) ∧ loader.scanner = packets.flatMap Packet.bytes) ∧
        link host (packets.map Packet.item) (feed loader []) = .ok ((), loader') := by
  have atEnd {n : ℕ} {loader : Loader World} (empty : loader.scanner = []) :
      loadLoop host n loader = .ok ((), loader') ↔ ∃ packets : List Packet,
        ((∀ packet ∈ packets, packet.Valid) ∧ loader.scanner = packets.flatMap Packet.bytes) ∧
          link host (packets.map Packet.item) (feed loader []) = .ok ((), loader') := by
    have stops : loadLoop host n loader = .ok ((), loader) := by
      cases n with
      | zero => rfl
      | succ n => rw [loadLoop, get_bind, if_pos (by rw [empty]; rfl)]; rfl
    have same : feed loader [] = loader := congrArg (feed loader) empty.symm
    rw [stops, same]
    constructor
    · intro done
      exact ⟨[], ⟨List.forall_mem_nil _, empty⟩, done⟩
    · rintro ⟨packets, ⟨-, input⟩, linked⟩
      cases packets with
      | nil => exact linked
      | cons packet packets => exact absurd (empty.symm.trans input) (List.cons_ne_nil _ _).symm
  induction n generalizing loader with
  | zero => exact atEnd (List.eq_nil_of_length_eq_zero (Nat.le_zero.mp enough))
  | succ n ih =>
    by_cases empty : loader.scanner = []
    · exact atEnd empty
    have shorter {packet : Packet} {rest : Bytes} (input : loader.scanner = packet.bytes ++ rest) : rest.length ≤ n := by
      have := congrArg List.length input
      rw [List.length_append, Packet.bytes, List.length_cons] at this
      omega
    rw [loadLoop, get_bind, if_neg (by rwa [List.isEmpty_iff]), bind_eq_ok]
    constructor
    · rintro ⟨_, middle, step, more⟩
      obtain ⟨packet, valid, input, loaded⟩ := (loadStep_iff loader middle).mp step
      obtain ⟨packets, ⟨all, rest⟩, linked⟩ := (ih (shorter input)).mp more
      refine ⟨packet :: packets, ⟨List.forall_mem_cons.mpr ⟨valid, all⟩, ?_⟩, (bind_of_ok loaded).trans linked⟩
      rw [input, rest, List.flatMap_cons]
    · rintro ⟨packets, ⟨all, input⟩, linked⟩
      cases packets with
      | nil => exact absurd input empty
      | cons packet packets =>
        rw [List.forall_mem_cons] at all
        rw [List.flatMap_cons] at input
        obtain ⟨_, last, loaded, more⟩ := bind_eq_ok.mp linked
        have same := load_leaves loaded
        refine ⟨(), feed last (packets.flatMap Packet.bytes), (loadStep_iff _ _).mpr ⟨packet, all.1, input, ?_⟩,
          (ih (shorter input)).mpr ⟨packets, ⟨all.2, rfl⟩, ?_⟩⟩
        · rw [feed_feed, same, loaded]
        · rw [feed_feed, same]
          exact more

/-- The loader before the first byte of a module. -/
def startLoader (host : Host World) (vm : Vm World) (bytecode : Bytes) : Loader World :=
  { scanner := bytecode, codePtr := vm.codeSize, functionList := tagAs (UInt64.ofNat host.emptyRrb) .list, vm }

section Modules

variable {bytecode : Bytes} {items : List Layout} {vm vm' : Vm World} {functions : Term}

private theorem finish_eq_ok {run : Except Stop (Unit × Loader World)} :
    (do
      let (_, loader) ← liftM run
      set loader.vm
      return loader.functionList : Exec World Term) vm = .ok (functions, vm') ↔
        ∃ loader, run = .ok ((), loader) ∧ loader.functionList = functions ∧ loader.vm = vm' := by
  rw [bind_eq_ok]
  constructor
  · rintro ⟨⟨_, loader⟩, _, lifted, finished⟩
    obtain ⟨ran, rfl⟩ := lift_eq_ok.mp lifted
    cases finished
    exact ⟨loader, ran, rfl, rfl⟩
  · rintro ⟨loader, ran, rfl, rfl⟩
    exact ⟨((), loader), vm, lift_eq_ok.mpr ⟨ran, rfl⟩, rfl⟩

private theorem loadModule_iff : loadModule host bytecode vm = .ok (functions, vm') ↔ ∃ loader,
    loadLoop host bytecode.length (startLoader host vm bytecode) = .ok ((), loader) ∧
      loader.functionList = functions ∧ loader.vm = vm' := by
  rw [loadModule, get_bind]
  exact finish_eq_ok

private theorem linkModule_iff : linkModule host items vm = .ok (functions, vm') ↔ ∃ loader,
    link host items (startLoader host vm []) = .ok ((), loader) ∧ loader.functionList = functions ∧ loader.vm = vm' := by
  rw [linkModule, get_bind]
  exact finish_eq_ok

/-- Loading bytes is taking them apart, which is possible in one way at most, and linking the items. -/
theorem loadModule_eq_ok : loadModule host bytecode vm = .ok (functions, vm') ↔
    ∃! packets : List Packet, ((∀ packet ∈ packets, packet.Valid) ∧ bytecode = packets.flatMap Packet.bytes) ∧
      linkModule host (packets.map Packet.item) vm = .ok (functions, vm') := by
  have loop := @loadLoop_iff _ host bytecode.length (startLoader host vm bytecode) le_rfl
  rw [loadModule_iff]
  constructor
  · rintro ⟨loader, ran, made⟩
    obtain ⟨packets, taken, linked⟩ := (loop loader).mp ran
    refine ⟨packets, ⟨taken, linkModule_iff.mpr ⟨loader, linked, made⟩⟩, fun others found => ?_⟩
    have decoded := (decode_eq_some_iff bytecode packets).mpr taken
    exact Option.some.inj (((decode_eq_some_iff bytecode others).mpr found.1).symm.trans decoded)
  · rintro ⟨packets, ⟨taken, linked⟩, -⟩
    obtain ⟨loader, ran, made⟩ := linkModule_iff.mp linked
    exact ⟨loader, (loop loader).mpr ⟨packets, taken, ran⟩, made⟩

end Modules

end Owl.Format
