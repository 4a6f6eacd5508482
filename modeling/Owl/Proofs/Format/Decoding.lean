import Owl.Model.Format.Packet
import Owl.Soundness.EmittedFormat

/-! # Decoding packets

The decoder gives valid packets in front of their bytes and nothing else, one parser a part of the format.
-/

namespace Owl.Format

open Owl.Compiler Owl.Runtime Parser StateExcept

theorem byte_decodes : Decodes byte (fun _ => True) fun c => [c] :=
  (Decodes.satisfy _).congr (fun _ => by simp) fun _ _ => rfl

theorem size_eq_iff {n : ℕ} {size : UInt8} : n = size.toNat ↔ n < 256 ∧ size = UInt8.ofNat n := by
  constructor
  · rintro rfl
    exact ⟨size.toNat_lt, by simp⟩
  · rintro ⟨small, rfl⟩
    rw [UInt8.toNat_ofNat', Nat.mod_eq_of_lt small]

private theorem counted_decodes : Decodes counted (·.length < 256) Layout.countedBytes := by
  refine byte_decodes.bind (fun size _ => .count size.toNat) (fun operands => ?_) fun size operands _ same => ?_
  · simp [size_eq_iff]
  · rw [Layout.countedBytes, (size_eq_iff.mp same).2, List.singleton_append]
    rfl

theorem takeWhile_buffer {text : Bytes} (zeroFree : 0 ∉ text) (spare : Bytes) :
    (text ++ 0 :: spare).takeWhile (· ≠ 0) = text ∧ (text ++ 0 :: spare).dropWhile (· ≠ 0) = 0 :: spare := by
  have all : ∀ c ∈ text, decide (c ≠ 0) := fun c member => decide_eq_true fun zero => zeroFree (zero ▸ member)
  rw [List.takeWhile_append_of_pos all, List.dropWhile_append_of_pos all]
  simp

theorem buffer_split {buffer : Bytes} (zero : 0 ∈ buffer) :
    0 ∉ buffer.takeWhile (· ≠ 0) ∧ buffer = buffer.takeWhile (· ≠ 0) ++ 0 :: (buffer.dropWhile (· ≠ 0)).tail := by
  obtain ⟨text, spare, rfl, zeroFree⟩ := List.eq_append_cons_of_mem zero
  obtain ⟨taken, dropped⟩ := takeWhile_buffer zeroFree spare
  rw [taken, dropped]
  exact ⟨zeroFree, rfl⟩

theorem buffer_decodes : Decodes buffer (fun pair => Packet.Buffered pair.1 pair.2)
    fun pair => Packet.bufferBytes pair.1 pair.2 := by
  have inner (taken : Bytes) : Decodes (if taken.contains 0
      then pure (taken.takeWhile (· ≠ 0), (taken.dropWhile (· ≠ 0)).tail) else failure : Parser UInt8 (Bytes × Bytes))
      (fun pair => 0 ∉ pair.1 ∧ taken = pair.1 ++ 0 :: pair.2) fun _ => [] := by
    split
    · next zero =>
      obtain ⟨zeroFree, split⟩ := buffer_split (List.contains_iff_mem.mp zero)
      refine (Decodes.pure _).congr (fun pair => ⟨?_, ?_⟩) fun _ _ => rfl
      · rintro ⟨free, rfl⟩
        obtain ⟨first, rest⟩ := takeWhile_buffer free pair.2
        exact Prod.ext first.symm (by rw [rest]; rfl)
      · rintro rfl
        exact ⟨zeroFree, split⟩
    · next noZero =>
      refine (Decodes.failure _).congr (fun pair => ⟨fun found => noZero ?_, False.elim⟩) fun _ _ => rfl
      rw [List.contains_iff_mem, found.2]
      simp
  have middle (size : UInt8) : Decodes (do
      let taken ← count size.toNat
      if taken.contains 0 then return (taken.takeWhile (· ≠ 0), (taken.dropWhile (· ≠ 0)).tail) else failure)
      (fun pair : Bytes × Bytes => 0 ∉ pair.1 ∧ pair.1.length + 1 + pair.2.length = size.toNat)
      fun pair => pair.1 ++ 0 :: pair.2 := by
    refine (Decodes.count _).bind (fun taken _ => inner taken) (fun pair => ?_) fun taken pair _ same => ?_
    · constructor
      · rintro ⟨free, length⟩
        exact ⟨_, by rw [← length, List.length_append, List.length_cons]; omega, free, rfl⟩
      · rintro ⟨taken, length, free, rfl⟩
        rw [List.length_append, List.length_cons] at length
        exact ⟨free, by omega⟩
    · rw [id, same.2, List.append_nil]
  refine byte_decodes.bind (fun size _ => middle size) (fun pair => ?_) fun size pair _ same => ?_
  · simp only [Packet.Buffered, size_eq_iff, true_and]
    exact ⟨fun found => ⟨_, found.1, found.2, rfl⟩, fun ⟨_, free, small, _⟩ => ⟨free, small⟩⟩
  · rw [Packet.bufferBytes, (size_eq_iff.mp same.2).2, List.singleton_append]

/-- The opcodes of items with a text. -/
def textOpcodes : Bytes := [OP_PUB_FN, OP_CAPTURE, OP_LOAD_STRING, OP_CALL]

private theorem operands_none {opcode : UInt8} (texted : opcode ∈ textOpcodes) :
    Layout.plainOperands opcode = none ∧ Layout.fixedOperands opcode = none := by
  simp only [textOpcodes, List.mem_cons, List.not_mem_nil, or_false] at texted
  rcases texted with rfl | rfl | rfl | rfl <;> exact ⟨rfl, rfl⟩

private theorem plainOperands_none {opcode : UInt8} {n : ℕ} (fixed : Layout.fixedOperands opcode = some n) :
    Layout.plainOperands opcode = none := by
  unfold Layout.fixedOperands at fixed
  split at fixed
  · next member =>
    simp only [List.mem_cons, List.not_mem_nil, or_false] at member
    rcases member with rfl | rfl <;> rfl
  split at fixed
  · next same => rw [same]; rfl
  split at fixed
  · next same => rw [same]; rfl
  · cases fixed

namespace Packet

variable {packet : Packet}

theorem Valid.isSome (valid : packet.Valid) (texted : packet.opcode ∈ textOpcodes) : packet.item.text?.isSome := by
  obtain ⟨none, none'⟩ := operands_none texted
  obtain ⟨item, spare⟩ := packet
  cases item with
  | plain opcode operands => exact absurd (none.symm.trans valid.1) (Option.some_ne_none _).symm
  | counted opcode fixed operands => exact absurd (none'.symm.trans valid.1.1) (Option.some_ne_none _).symm
  | _ => rfl

/-- The packets with an opcode are those that are made from the parts that are read behind it. -/
theorem texted_iff {α : Type} {make : α → Packet} {fits : α → Prop} {opcode : UInt8} (texted : opcode ∈ textOpcodes)
    (made : ∀ a, (make a).opcode = opcode ∧ ((make a).Valid ↔ fits a))
    (only : ∀ packet : Packet, packet.item.text?.isSome → packet.opcode = opcode → ∃ a, packet = make a) :
    packet.Valid ∧ packet.opcode = opcode ↔ ∃ a, fits a ∧ packet = make a := by
  constructor
  · rintro ⟨valid, rfl⟩
    obtain ⟨a, rfl⟩ := only packet (valid.isSome texted) rfl
    exact ⟨a, (made a).2.mp valid, rfl⟩
  · rintro ⟨a, holds, rfl⟩
    exact ⟨(made a).2.mpr holds, (made a).1⟩

private theorem plain_iff {opcode : UInt8} {n : ℕ} (plain : Layout.plainOperands opcode = some n) :
    packet.Valid ∧ packet.opcode = opcode ↔ ∃ operands : Bytes, operands.length = n ∧
      packet = ⟨.plain opcode operands, []⟩ := by
  constructor
  · rintro ⟨valid, rfl⟩
    obtain ⟨item, spare⟩ := packet
    cases item with
    | plain opcode operands =>
      obtain rfl : spare = [] := valid.2
      exact ⟨operands, Option.some.inj (valid.1.symm.trans plain), rfl⟩
    | counted opcode fixed operands =>
      exact absurd ((plainOperands_none valid.1.1).symm.trans plain) (Option.some_ne_none _).symm
    | header _ | capture _ _ | loadString _ _ | call _ _ _ => cases plain
  · rintro ⟨operands, rfl, rfl⟩
    exact ⟨⟨plain, rfl⟩, rfl⟩

private theorem counted_iff {opcode : UInt8} {n : ℕ} (none : Layout.plainOperands opcode = none)
    (fixed : Layout.fixedOperands opcode = some n) : packet.Valid ∧ packet.opcode = opcode ↔
      ∃ parts : Bytes × Bytes, (parts.1.length = n ∧ parts.2.length < 256) ∧
        packet = ⟨.counted opcode parts.1 parts.2, []⟩ := by
  constructor
  · rintro ⟨valid, rfl⟩
    obtain ⟨item, spare⟩ := packet
    cases item with
    | counted opcode first operands =>
      obtain rfl : spare = [] := valid.2
      exact ⟨(first, operands), ⟨Option.some.inj (valid.1.1.symm.trans fixed), valid.1.2⟩, rfl⟩
    | plain opcode operands => exact absurd (none.symm.trans valid.1) (Option.some_ne_none _).symm
    | header _ | capture _ _ | loadString _ _ | call _ _ _ => cases fixed
  · rintro ⟨parts, ⟨rfl, few⟩, rfl⟩
    exact ⟨⟨⟨fixed, few⟩, rfl⟩, rfl⟩

/-- No packet has another opcode. -/
theorem Valid.known (valid : packet.Valid) (none : Layout.plainOperands packet.opcode = Option.none)
    (none' : Layout.fixedOperands packet.opcode = Option.none) : packet.opcode ∈ textOpcodes := by
  obtain ⟨item, spare⟩ := packet
  cases item with
  | plain opcode operands => exact absurd (none.symm.trans valid.1) (Option.some_ne_none _).symm
  | counted opcode fixed operands => exact absurd (none'.symm.trans valid.1.1) (Option.some_ne_none _).symm
  | _ => simp [textOpcodes, opcode]

end Packet

private theorem packetBody_decodes (opcode : UInt8) :
    Decodes (packetBody opcode) (fun packet => packet.Valid ∧ packet.opcode = opcode) Packet.body := by
  unfold packetBody
  split
  · next same =>
    subst same
    refine buffer_decodes.map (fun packet => Packet.texted_iff (by decide) (fun text => ?_) ?_) fun text _ => rfl
    · exact ⟨rfl, And.right, fun buffered => ⟨trivial, buffered⟩⟩
    · rintro ⟨item, spare⟩ texted same
      cases item <;> simp_all [Packet.opcode, Layout.text?, OP_PUB_FN, OP_CAPTURE, OP_LOAD_STRING, OP_CALL]
  split
  · next same =>
    subst same
    refine (byte_decodes.andThen buffer_decodes).map (fun packet => Packet.texted_iff (by decide) (fun parts => ?_) ?_)
      fun parts _ => rfl
    · exact ⟨rfl, fun valid => ⟨trivial, valid.2⟩, fun fits => ⟨trivial, fits.2⟩⟩
    · rintro ⟨item, spare⟩ texted same
      cases item <;> simp_all [Packet.opcode, Layout.text?, OP_PUB_FN, OP_CAPTURE, OP_LOAD_STRING, OP_CALL]
  split
  · next same =>
    subst same
    refine (byte_decodes.andThen buffer_decodes).map (fun packet => Packet.texted_iff (by decide) (fun parts => ?_) ?_)
      fun parts _ => rfl
    · exact ⟨rfl, fun valid => ⟨trivial, valid.2⟩, fun fits => ⟨trivial, fits.2⟩⟩
    · rintro ⟨item, spare⟩ texted same
      cases item <;> simp_all [Packet.opcode, Layout.text?, OP_PUB_FN, OP_CAPTURE, OP_LOAD_STRING, OP_CALL]
  split
  · next same =>
    subst same
    refine (byte_decodes.andThen (buffer_decodes.andThen counted_decodes)).map
      (fun packet => Packet.texted_iff (by decide) (fun parts => ?_) ?_) fun parts _ => rfl
    · exact ⟨rfl, fun valid => ⟨trivial, valid.2, valid.1⟩, fun fits => ⟨fits.2.2, fits.2.1⟩⟩
    · rintro ⟨item, spare⟩ texted same
      cases item <;> simp_all [Packet.opcode, Layout.text?, OP_PUB_FN, OP_CAPTURE, OP_LOAD_STRING, OP_CALL]
  next notHeader notCapture notString notCall =>
  split
  · next n plain => exact (Decodes.count n).map (fun packet => Packet.plain_iff plain) fun operands _ => rfl
  · next n none fixed =>
    exact ((Decodes.count n).andThen counted_decodes).map (fun packet => Packet.counted_iff none fixed) fun parts _ => rfl
  · next none none' =>
    refine (Decodes.failure _).congr (fun packet => ⟨?_, False.elim⟩) fun _ _ => rfl
    rintro ⟨valid, rfl⟩
    have known := valid.known none none'
    simp [textOpcodes, notHeader, notCapture, notString, notCall] at known

private theorem packet_decodes : Decodes packet Packet.Valid Packet.bytes :=
  byte_decodes.bind (fun opcode _ => packetBody_decodes opcode)
    (fun packet => ⟨fun valid => ⟨packet.opcode, trivial, valid, rfl⟩, fun found => found.elim fun _ both => both.2.1⟩)
    fun opcode packet _ same => by rw [Packet.bytes, same.2, List.singleton_append]

/-- An input is the bytes of valid packets in one way, and the decoder finds it. -/
theorem decode_eq_some_iff (bytecode : Bytes) (packets : List Packet) :
    decode bytecode = some packets ↔ (∀ packet ∈ packets, packet.Valid) ∧ bytecode = packets.flatMap Packet.bytes :=
  packet_decodes.whole (fun _ _ => List.cons_ne_nil _ _) le_rfl packets

end Owl.Format
