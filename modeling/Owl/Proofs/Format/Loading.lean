import Owl.Model.Format.Layout
import Owl.Proofs.Runtime.Loading
import Mathlib.Data.List.TakeWhile

/-! # The loader follows the layout

On the bytes of an item the loader consumes exactly that item and appends its loaded form. The texts have
to fit their length byte and to be free of zeros.
-/

namespace Owl.Format

open Owl.Runtime StateExcept

variable {World : Type} {host : Host World}

/-- Write code without counting it. -/
def put (loader : Loader World) (code : Bytes) : Loader World :=
  { loader with
    codePtr := loader.codePtr + code.length
    vm := { loader.vm with code := ByteMemory.writeBytes loader.vm.code loader.codePtr code } }

/-- Count code without writing it. -/
def grow (loader : Loader World) (n : ℕ) : Loader World :=
  { loader with vm := { loader.vm with codeSize := loader.vm.codeSize + n } }

section Algebra

variable (loader : Loader World)

theorem put_put (first second : Bytes) : put (put loader first) second = put loader (first ++ second) := by
  simp only [put, List.length_append, ByteMemory.writeBytes_append, Nat.add_assoc]

private theorem grow_grow (m n : ℕ) : grow (grow loader m) n = grow loader (m + n) := by
  simp only [grow, Nat.add_assoc]

private theorem put_grow (n : ℕ) (code : Bytes) : put (grow loader n) code = grow (put loader code) n := rfl

theorem put_feed (scanner code : Bytes) : put (feed loader scanner) code = feed (put loader code) scanner :=
  rfl

theorem grow_feed (scanner : Bytes) (n : ℕ) : grow (feed loader scanner) n = feed (grow loader n) scanner :=
  rfl

theorem feed_feed (first second : Bytes) : feed (feed loader first) second = feed loader second := rfl

theorem append_eq (code : Bytes) : append loader code = grow (put loader code) code.length := rfl

end Algebra

theorem scannerNext_feed (loader : Loader World) (byte : UInt8) (rest : Bytes) :
    scannerNext (feed loader (byte :: rest)) = .ok (byte, feed loader rest) := rfl

theorem scannerRead_feed (loader : Loader World) (text rest : Bytes) :
    scannerRead text.length (feed loader (text ++ rest)) = .ok (text, feed loader rest) := by
  have enough : ¬ (feed loader (text ++ rest)).scanner.length < text.length := by simp [feed]
  rw [scannerRead, get_bind, if_neg enough, set_bind]
  simp only [feed, List.take_left', List.drop_left']
  rfl

theorem pushCode_run (loader : Loader World) (ch : UInt8) :
    pushCode ch loader = .ok ((), put loader [ch]) := by
  simp only [put, ByteMemory.writeBytes_singleton]
  rfl

theorem growCode_run (loader : Loader World) (n : ℕ) : growCode n loader = .ok ((), grow loader n) := rfl

theorem copyBytes_feed (code rest : Bytes) (loader : Loader World) :
    copyBytes code.length (feed loader (code ++ rest)) = .ok ((), feed (put loader code) rest) := by
  induction code generalizing loader with
  | nil =>
    simp only [put, ByteMemory.writeBytes_nil]
    rfl
  | cons ch code ih =>
    rw [List.length_cons, copyBytes, List.cons_append, bind_of_ok (scannerNext_feed ..),
      bind_of_ok (pushCode_run ..), put_feed, ih, put_put]
    rfl

private theorem copyOperands_feed (code rest : Bytes) (loader : Loader World) :
    copyOperands code.length (feed loader (code ++ rest)) =
      .ok ((), feed (append loader code) rest) := by
  induction code generalizing loader with
  | nil =>
    simp only [append, ByteMemory.writeBytes_nil]
    rfl
  | cons ch code ih =>
    rw [List.length_cons, copyOperands, List.cons_append, bind_of_ok (scannerNext_feed ..),
      bind_of_ok (pushCode_run ..), bind_of_ok (growCode_run ..), put_feed, grow_feed, ih, append_eq,
      append_eq, put_grow, put_put, grow_grow, Nat.add_comm 1]
    rfl

private theorem cString_terminated (text : Bytes) : cString (text ++ [0]) = .ok (text.takeWhile (· ≠ 0)) := by
  rw [cString, if_pos (by simp), List.takeWhile_append]
  split
  · next whole =>
    rw [(List.takeWhile_prefix _).eq_of_length whole]
    simp
  · rfl

theorem internText_feed (pool : Pool) {text : Bytes} (short : text.length < 255)
    (rest : Bytes) (loader : Loader World) :
    internText host pool (feed loader (Layout.textBytes text ++ rest)) =
      request host pool (text.takeWhile (· ≠ 0)) (feed loader rest) := by
  have size : (UInt8.ofNat (text.length + 1)).toNat = (text ++ [0]).length := by
    rw [UInt8.toNat_ofNat', Nat.mod_eq_of_lt (by omega), List.length_append, List.length_singleton]
  rw [internText, Layout.textBytes, List.append_assoc, List.cons_append, bind_of_ok (scannerNext_feed ..),
    size, ← List.append_assoc, bind_of_ok (scannerRead_feed ..), cString_terminated]
  rfl

private theorem copied_feed (ch : UInt8) (code rest : Bytes) (loader : Loader World) :
    (do
      pushCode ch
      copyBytes code.length
      growCode (code.length + 1) : LoadM World Unit) (feed loader (code ++ rest)) =
        .ok ((), feed (append loader (ch :: code)) rest) := by
  rw [bind_of_ok (pushCode_run ..), put_feed, bind_of_ok (copyBytes_feed ..), growCode_run, put_put,
    grow_feed]
  rfl

private theorem countedTail_feed (n : ℕ) {operands : Bytes} (few : operands.length < 256) (rest : Bytes)
    (loader : Loader World) :
    (do
      let size ← scannerNext
      pushCode size
      growCode n
      copyOperands size.toNat : LoadM World Unit) (feed loader (Layout.countedBytes operands ++ rest)) =
        .ok ((), feed (grow (put loader (Layout.countedBytes operands)) (n + operands.length)) rest) := by
  have size : (UInt8.ofNat operands.length).toNat = operands.length := by
    rw [UInt8.toNat_ofNat', Nat.mod_eq_of_lt few]
  rw [Layout.countedBytes, List.cons_append, bind_of_ok (scannerNext_feed ..), bind_of_ok (pushCode_run ..),
    put_feed, bind_of_ok (growCode_run ..), grow_feed, size, copyOperands_feed, append_eq, put_grow, put_put,
    grow_grow]
  rfl

private theorem counted_feed (ch : UInt8) (fixed : Bytes) {operands : Bytes} (few : operands.length < 256)
    (rest : Bytes) (loader : Loader World) :
    (do
      pushCode ch
      copyBytes fixed.length
      let size ← scannerNext
      pushCode size
      growCode (fixed.length + 2)
      copyOperands size.toNat : LoadM World Unit)
        (feed loader (fixed ++ Layout.countedBytes operands ++ rest)) =
          .ok ((), feed (append loader (ch :: fixed ++ Layout.countedBytes operands)) rest) := by
  rw [bind_of_ok (pushCode_run ..), put_feed, List.append_assoc, bind_of_ok (copyBytes_feed ..), put_put,
    countedTail_feed _ few, put_put, append_eq, List.singleton_append]
  congr 4
  simp only [Layout.countedBytes, List.cons_append, List.length_cons, List.length_append]
  omega

theorem loadStep_plain {opcode : UInt8} {operands : Bytes}
    (valid : Layout.plainOperands opcode = some operands.length) (rest : Bytes) (loader : Loader World) :
    loadStep host (feed loader (opcode :: operands ++ rest)) =
      .ok ((), feed (append loader (opcode :: operands)) rest) := by
  have copied := copied_feed opcode operands rest loader
  rw [loadStep, List.cons_append, bind_of_ok (scannerNext_feed ..)]
  unfold Layout.plainOperands at valid
  split at valid
  · next same =>
    obtain rfl : operands = [] := List.eq_nil_of_length_eq_zero (Option.some.inj valid).symm
    rw [if_pos same]
    exact copied
  next notReturn =>
  rw [if_neg notReturn]
  split at valid
  · next member =>
    rw [← Option.some.inj valid] at copied
    rw [if_pos member]
    exact copied
  next notOne =>
  rw [if_neg notOne]
  split at valid
  · next member =>
    rw [← Option.some.inj valid] at copied
    rw [if_pos member]
    exact copied
  next notTwo =>
  rw [if_neg notTwo]
  split at valid
  · next member =>
    rw [← Option.some.inj valid] at copied
    rw [if_pos member]
    exact copied
  next notThree =>
  rw [if_neg notThree]
  split at valid
  · next member =>
    rw [← Option.some.inj valid] at copied
    rw [if_pos member]
    exact copied
  · contradiction

private theorem loadStep_counted {opcode : UInt8} {fixed operands : Bytes}
    (valid : Layout.fixedOperands opcode = some fixed.length) (few : operands.length < 256) (rest : Bytes)
    (loader : Loader World) :
    loadStep host (feed loader (opcode :: fixed ++ Layout.countedBytes operands ++ rest)) =
      .ok ((), feed (append loader (opcode :: fixed ++ Layout.countedBytes operands)) rest) := by
  have counted := counted_feed opcode fixed few rest loader
  rw [loadStep, List.cons_append, List.cons_append, bind_of_ok (scannerNext_feed ..)]
  unfold Layout.fixedOperands at valid
  split at valid
  · next member =>
    rw [← Option.some.inj valid] at counted
    simp only [List.mem_cons, List.not_mem_nil, or_false] at member
    rcases member with rfl | rfl <;> exact counted
  split at valid
  · next same =>
    subst same
    rw [← Option.some.inj valid] at counted
    exact counted
  split at valid
  · next same =>
    subst same
    rw [← Option.some.inj valid] at counted
    exact counted
  · contradiction

/-- A loader whose host has been asked about a text. -/
def asked (host : Host World) (pool : Pool) (text : Bytes) (loader : Loader World) : Loader World :=
  { loader with vm := { loader.vm with world := (host.intern loader.vm.world pool text).2 } }

theorem request_run (pool : Pool) (text : Bytes) (loader : Loader World) :
    request host pool text loader =
      .ok ((host.intern loader.vm.world pool text).1, asked host pool text loader) := rfl

theorem request_feed (pool : Pool) (text rest : Bytes) (loader : Loader World) :
    request host pool text (feed loader rest) =
      .ok ((host.intern loader.vm.world pool text).1, feed (asked host pool text loader) rest) := rfl

theorem internText_put (pool : Pool) {text : Bytes} (short : text.length < 255)
    (code rest : Bytes) (loader : Loader World) :
    internText host pool (feed (put loader code) (Layout.textBytes text ++ rest)) =
      .ok ((host.intern loader.vm.world pool (text.takeWhile (· ≠ 0))).1,
        feed (put (asked host pool (text.takeWhile (· ≠ 0)) loader) code) rest) :=
  internText_feed pool short rest (put loader code)

private theorem loadStep_header {name : Bytes} (short : name.length < 255) (rest : Bytes)
    (loader : Loader World) :
    loadStep host (feed loader (OP_PUB_FN :: Layout.textBytes name ++ rest)) =
      (Layout.header name).cut.load host (feed loader rest) := by
  rw [loadStep, List.cons_append, bind_of_ok (scannerNext_feed ..)]
  change (internText host .functionNames >>= fun id =>
    if id < MAX_FUNCTIONS then publish host id else throw .assertion) _ = _
  rw [bind_of_ok ((internText_feed _ short _ _).trans (request_feed ..)), Layout.cut, Layout.load,
    bind_of_ok (request_feed ..)]

private theorem loadStep_capture (dst : UInt8) {name : Bytes} (short : name.length < 255)
    (rest : Bytes) (loader : Loader World) :
    loadStep host (feed loader (OP_CAPTURE :: dst :: Layout.textBytes name ++ rest)) =
      (Layout.capture dst name).cut.load host (feed loader rest) := by
  rw [loadStep, List.cons_append, bind_of_ok (scannerNext_feed ..)]
  change (do
    pushCode OP_CAPTURE
    copyBytes [dst].length
    let id ← internText host .functionNames
    pushCode (UInt8.ofNat id)
    growCode 3 : LoadM World Unit) (feed loader ([dst] ++ (Layout.textBytes name ++ rest))) = _
  rw [bind_of_ok (pushCode_run ..), put_feed, bind_of_ok (copyBytes_feed ..), put_put,
    bind_of_ok (internText_put _ short ..), bind_of_ok (pushCode_run ..), growCode_run, put_feed,
    put_put, Layout.cut, Layout.load, bind_of_ok (request_feed ..)]
  rfl

private theorem loadStep_loadString (dst : UInt8) {content : Bytes} (short : content.length < 255)
    (rest : Bytes) (loader : Loader World) :
    loadStep host (feed loader (OP_LOAD_STRING :: dst :: Layout.textBytes content ++ rest)) =
      (Layout.loadString dst content).cut.load host (feed loader rest) := by
  rw [loadStep, List.cons_append, bind_of_ok (scannerNext_feed ..)]
  change (do
    pushCode OP_LOAD_STRING
    copyBytes [dst].length
    let id ← internText host .internPool
    if id < 255 then
      pushCode (UInt8.ofNat id)
      growCode 3
    else throw .assertion : LoadM World Unit)
      (feed loader ([dst] ++ (Layout.textBytes content ++ rest))) = _
  rw [bind_of_ok (pushCode_run ..), put_feed, bind_of_ok (copyBytes_feed ..), put_put,
    bind_of_ok (internText_put _ short ..), Layout.cut, Layout.load, bind_of_ok (request_feed ..)]
  by_cases small : (host.intern loader.vm.world .internPool (content.takeWhile (· ≠ 0))).1 < 255
  · rw [if_pos small, if_pos small, bind_of_ok (pushCode_run ..), growCode_run, put_feed, put_put]
    rfl
  · rw [if_neg small, if_neg small]
    rfl

private theorem loadStep_call (dst : UInt8) {name operands : Bytes} (short : name.length < 255)
   (few : operands.length < 256) (rest : Bytes) (loader : Loader World) :
    loadStep host (feed loader
        (OP_CALL :: dst :: Layout.textBytes name ++ Layout.countedBytes operands ++ rest)) =
      (Layout.call dst name operands).cut.load host (feed loader rest) := by
  rw [loadStep, List.append_assoc, List.cons_append, bind_of_ok (scannerNext_feed ..)]
  change (do
    pushCode OP_CALL
    copyBytes [dst].length
    let id ← internText host .functionNames
    if id < MAX_FUNCTIONS then
      pushCode (UInt8.ofNat id)
      let arity ← scannerNext
      pushCode arity
      growCode 4
      copyOperands arity.toNat
    else throw .assertion : LoadM World Unit)
      (feed loader ([dst] ++ (Layout.textBytes name ++ (Layout.countedBytes operands ++ rest)))) = _
  rw [bind_of_ok (pushCode_run ..), put_feed, bind_of_ok (copyBytes_feed ..), put_put,
    bind_of_ok (internText_put _ short ..), Layout.cut, Layout.load, bind_of_ok (request_feed ..)]
  by_cases small : (host.intern loader.vm.world .functionNames (name.takeWhile (· ≠ 0))).1 < MAX_FUNCTIONS
  · have width (id : UInt8) :
        4 + operands.length = ([OP_CALL, dst, id] ++ Layout.countedBytes operands).length := by
      simp only [Layout.countedBytes, List.cons_append, List.nil_append, List.length_cons]
      omega
    rw [if_pos small, if_pos small, bind_of_ok (pushCode_run ..), put_feed, put_put,
      countedTail_feed _ few, put_put, width]
    rfl
  · rw [if_neg small, if_neg small]
    rfl

/-- On the bytes of an item the loader does what loading that item means, with its text up to the first
zero. -/
theorem loadStep_cut {item : Layout} (valid : item.Valid)
    (short : ∀ pool text, item.text? = some (pool, text) → text.length < 255) (rest : Bytes)
    (loader : Loader World) :
    loadStep host (feed loader (item.emitted ++ rest)) = item.cut.load host (feed loader rest) := by
  cases item with
  | header name => exact loadStep_header (short _ _ rfl) rest loader
  | plain opcode operands => exact loadStep_plain valid rest loader
  | counted opcode fixed operands => exact loadStep_counted valid.1 valid.2 rest loader
  | capture dst name => exact loadStep_capture dst (short _ _ rfl) rest loader
  | loadString dst content => exact loadStep_loadString dst (short _ _ rfl) rest loader
  | call dst name operands => exact loadStep_call dst (short _ _ rfl) valid rest loader

theorem takeWhile_zeroFree {text : Bytes} (zeroFree : 0 ∉ text) : text.takeWhile (· ≠ 0) = text :=
  List.takeWhile_eq_self_iff.mpr fun _ member => decide_eq_true fun zero => zeroFree (zero ▸ member)

private theorem cut_eq {item : Layout} (zeroFree : ∀ pool text, item.text? = some (pool, text) → 0 ∉ text) :
    item.cut = item := by
  cases item with
  | plain opcode operands | counted opcode fixed operands => rfl
  | header name | capture dst name | loadString dst name | call dst name operands =>
    simp only [Layout.cut, takeWhile_zeroFree (zeroFree _ _ rfl)]

theorem loadStep_item {item : Layout} (valid : item.Valid) (texts : ∀ pool text,
      item.text? = some (pool, text) → text.length < 255 ∧ 0 ∉ text) (rest : Bytes) (loader : Loader World) :
    loadStep host (feed loader (item.emitted ++ rest)) = item.load host (feed loader rest) := by
  rw [loadStep_cut valid (fun pool text named => (texts pool text named).1),
    cut_eq fun pool text named => (texts pool text named).2]

end Owl.Format
