import Mathlib.Data.List.GetD
import Mathlib.Tactic.Ring
import Mathlib.Logic.Function.Basic

/-! # Byte memory

Memory is a total function from addresses to bytes. Multi-byte values are little-endian. The frame
rule of every read is agreement: a read depends on the bytes of its range alone.
-/

/-- Memory that holds a byte at every address. -/
abbrev ByteMemory := ℕ → UInt8

/-- The value of little-endian bytes. -/
def ofLittleEndian : List UInt8 → ℕ
  | [] => 0
  | byte :: bytes => byte.toNat + 256 * ofLittleEndian bytes

/-- The `n` low bytes of a number. -/
def littleEndian : ℕ → ℕ → List UInt8
  | 0, _ => []
  | n + 1, value => UInt8.ofNat value :: littleEndian n (value / 256)

@[simp] theorem littleEndian_length (n value : ℕ) : (littleEndian n value).length = n := by
  induction n generalizing value with
  | zero => rfl
  | succ n ih => simp [littleEndian, ih]

private theorem ofLittleEndian_littleEndian (n value : ℕ) :
    ofLittleEndian (littleEndian n value) = value % 256 ^ n := by
  induction n generalizing value with
  | zero => simp [littleEndian, ofLittleEndian, Nat.mod_one]
  | succ n ih =>
    rw [littleEndian, ofLittleEndian, ih, UInt8.toNat_ofNat', show 256 ^ (n + 1) = 256 * 256 ^ n by ring,
      Nat.mod_mul]

private theorem ofLittleEndian_lt (bytes : List UInt8) : ofLittleEndian bytes < 256 ^ bytes.length := by
  induction bytes with
  | nil => simp [ofLittleEndian]
  | cons byte bytes ih =>
    have small := byte.toNat_lt
    rw [ofLittleEndian, List.length_cons, Nat.pow_succ]
    omega

namespace ByteMemory

/-- The bytes of a range. -/
def readBytes (memory : ByteMemory) (address n : ℕ) : List UInt8 :=
  (List.range n).map fun i => memory (address + i)

/-- Replace the bytes of a range. -/
def writeBytes (memory : ByteMemory) (address : ℕ) (bytes : List UInt8) : ByteMemory :=
  fun i => if address ≤ i ∧ i < address + bytes.length then bytes.getD (i - address) 0 else memory i

def readNat (memory : ByteMemory) (address n : ℕ) : ℕ := ofLittleEndian (memory.readBytes address n)

def writeNat (memory : ByteMemory) (address n value : ℕ) : ByteMemory :=
  memory.writeBytes address (littleEndian n value)

/-- Two memories with the same bytes in a range. -/
def AgreeOn (memory other : ByteMemory) (start stop : ℕ) : Prop :=
  ∀ i, start ≤ i → i < stop → memory i = other i

variable {memory other : ByteMemory}

@[simp] theorem readBytes_length (memory : ByteMemory) (address n : ℕ) :
    (memory.readBytes address n).length = n := by
  simp [readBytes]

theorem readBytes_getElem? {address n i : ℕ} (inside : i < n) :
    (memory.readBytes address n)[i]? = some (memory (address + i)) := by
  simp [readBytes, inside]

theorem readBytes_congr {address n : ℕ} (agree : memory.AgreeOn other address (address + n)) :
    memory.readBytes address n = other.readBytes address n := by
  refine List.map_congr_left fun i member => agree _ (by omega) ?_
  have := List.mem_range.mp member
  omega

theorem readNat_congr {address n : ℕ} (agree : memory.AgreeOn other address (address + n)) :
    memory.readNat address n = other.readNat address n :=
  congrArg ofLittleEndian (readBytes_congr agree)

/-- The same bytes elsewhere. -/
theorem readBytes_shift {address address' n : ℕ}
    (same : ∀ i < n, other (address' + i) = memory (address + i)) :
    other.readBytes address' n = memory.readBytes address n :=
  List.map_congr_left fun i member => same i (List.mem_range.mp member)

theorem readNat_shift {address address' n : ℕ}
    (same : ∀ i < n, other (address' + i) = memory (address + i)) :
    other.readNat address' n = memory.readNat address n :=
  congrArg ofLittleEndian (readBytes_shift same)

private theorem readBytes_add (memory : ByteMemory) (address m n : ℕ) :
    memory.readBytes address (m + n) =
      memory.readBytes address m ++ memory.readBytes (address + m) n := by
  simp [readBytes, List.range_add, Nat.add_assoc]

theorem writeBytes_outside {address i : ℕ} {bytes : List UInt8}
    (outside : i < address ∨ address + bytes.length ≤ i) :
    memory.writeBytes address bytes i = memory i := by
  rw [writeBytes, if_neg (by omega)]

theorem writeBytes_inside {address i : ℕ} {bytes : List UInt8} (lower : address ≤ i)
    (upper : i < address + bytes.length) :
    memory.writeBytes address bytes i = bytes.getD (i - address) 0 := by
  rw [writeBytes, if_pos ⟨lower, upper⟩]

@[simp] theorem writeBytes_nil (memory : ByteMemory) (address : ℕ) :
    memory.writeBytes address [] = memory := by
  funext i
  exact writeBytes_outside (by simp only [List.length_nil]; omega)

theorem writeBytes_append (memory : ByteMemory) (address : ℕ) (first second : List UInt8) :
    memory.writeBytes address (first ++ second) =
      (memory.writeBytes address first).writeBytes (address + first.length) second := by
  funext i
  simp only [writeBytes, List.length_append]
  by_cases early : i < address + first.length
  · by_cases inside : address ≤ i
    · have position : i - address < first.length := by omega
      rw [if_pos (by omega), if_neg (by omega), if_pos (by omega), List.getD_append _ _ _ _ position]
    · rw [if_neg (by omega), if_neg (by omega), if_neg (by omega)]
  · by_cases inside : i < address + first.length + second.length
    · rw [if_pos (by omega), if_pos (by omega), List.getD_append_right _ _ _ _ (by omega),
        Nat.sub_add_eq]
    · rw [if_neg (by omega), if_neg (by omega), if_neg (by omega)]

theorem writeBytes_singleton (memory : ByteMemory) (address : ℕ) (byte : UInt8) :
    memory.writeBytes address [byte] = Function.update memory address byte := by
  funext i
  by_cases same : i = address
  · simp [writeBytes, same]
  · rw [writeBytes_outside (by simp only [List.length_singleton]; omega), Function.update_of_ne same]

/-- A write changes nothing in a range that it does not meet. -/
theorem writeBytes_agreeOn {address start stop : ℕ} {bytes : List UInt8}
    (apart : stop ≤ address ∨ address + bytes.length ≤ start) :
    (memory.writeBytes address bytes).AgreeOn memory start stop :=
  fun _ lower upper => writeBytes_outside (by omega)

private theorem writeNat_agreeOn {address n value start stop : ℕ}
    (apart : stop ≤ address ∨ address + n ≤ start) :
    (memory.writeNat address n value).AgreeOn memory start stop :=
  writeBytes_agreeOn (by simpa using apart)

theorem readBytes_writeBytes (memory : ByteMemory) (address : ℕ) (bytes : List UInt8) :
    (memory.writeBytes address bytes).readBytes address bytes.length = bytes := by
  apply List.ext_getElem?
  intro i
  by_cases inside : i < bytes.length
  · rw [readBytes_getElem? inside, writeBytes_inside (by omega) (by omega), List.getElem?_eq_getElem inside]
    simp [inside]
  · simp [readBytes, Nat.not_lt.mp inside]

/-- Memory that holds a list holds its parts. -/
theorem readBytes_eq_append {address : ℕ} {first second : List UInt8}
    (held : memory.readBytes address (first ++ second).length = first ++ second) :
    memory.readBytes address first.length = first ∧
      memory.readBytes (address + first.length) second.length = second := by
  rw [List.length_append, readBytes_add] at held
  exact List.append_inj held (readBytes_length _ _ _)

theorem readNat_of_littleEndian {address n value : ℕ}
    (held : memory.readBytes address (littleEndian n value).length = littleEndian n value) :
    memory.readNat address n = value % 256 ^ n := by
  rw [littleEndian_length] at held
  rw [readNat, held, ofLittleEndian_littleEndian]

/-- Memory that holds numbers one after the other. -/
theorem readNat_flatMap {α : Type} {number : α → ℕ} {n address : ℕ} {xs : List α}
    (held : memory.readBytes address (xs.flatMap fun x => littleEndian n (number x)).length =
      xs.flatMap fun x => littleEndian n (number x)) {k : ℕ} (inside : k < xs.length) :
    memory.readNat (address + n * k) n = number xs[k] % 256 ^ n := by
  induction xs generalizing address k with
  | nil => exact absurd inside (Nat.not_lt_zero k)
  | cons x xs ih =>
    rw [List.flatMap_cons] at held
    obtain ⟨first, others⟩ := readBytes_eq_append held
    rw [littleEndian_length] at others
    cases k with
    | zero => exact readNat_of_littleEndian first
    | succ k =>
      rw [Nat.mul_succ, Nat.add_comm (n * k), ← Nat.add_assoc]
      exact ih others (Nat.lt_of_succ_lt_succ inside)

theorem readNat_writeNat (memory : ByteMemory) (address n value : ℕ) :
    (memory.writeNat address n value).readNat address n = value % 256 ^ n := by
  have read := readBytes_writeBytes memory address (littleEndian n value)
  rw [littleEndian_length] at read
  rw [readNat, writeNat, read, ofLittleEndian_littleEndian]

/-- A read outside a written range. -/
theorem readNat_writeNat_apart {address n value start m : ℕ}
    (apart : start + m ≤ address ∨ address + n ≤ start) :
    (memory.writeNat address n value).readNat start m = memory.readNat start m :=
  readNat_congr (writeNat_agreeOn (by omega))

theorem readNat_lt (memory : ByteMemory) (address n : ℕ) : memory.readNat address n < 256 ^ n := by
  simpa [readNat] using ofLittleEndian_lt (memory.readBytes address n)

end ByteMemory
