import Owl.Model.Runtime.Printing

/-! # Printing against string conversion

The two texts of a term differ in the format of its integers and in the separators of its tuples. Both
differences show in the characters that are not digits, so that nothing in a term can hide them.
-/

namespace Owl.Runtime

open Compiler (decimal)

@[elab_as_elim, induction_eliminator]
theorem Datum.inductionOn {motive : Datum → Prop} (int : ∀ payload, motive (.int payload))
    (false : motive .false) (true : motive .true) (nil : motive .nil) (string : ∀ text, motive (.string text))
    (tuple : ∀ elems, (∀ elem ∈ elems, motive elem) → motive (.tuple elems))
    (list : ∀ elems, (∀ elem ∈ elems, motive elem) → motive (.list elems))
    (function : ∀ name, motive (.function name)) (datum : Datum) : motive datum :=
  Datum.rec (motive_2 := fun elems => ∀ elem ∈ elems, motive elem)
    int false true nil string tuple list function
    (fun _ member => absurd member List.not_mem_nil)
    (fun _ _ head tail _ member => (List.mem_cons.mp member).elim (· ▸ head) (tail _)) datum

/-- The text that is printed is the text of the string. -/
def PrintsAsString (datum : Datum) : Prop := ∃ text, datum.print = some text ∧ datum.toText = some text

mutual

/-- Integers that are printed as they are, and no tuple with two elements. -/
def Datum.Plain : Datum → Prop
  | .int payload => payload < 2 ^ 31
  | .tuple elems => elems.length ≤ 1 ∧ Datum.AllPlain elems
  | .list elems => Datum.AllPlain elems
  | _ => True

def Datum.AllPlain : List Datum → Prop
  | [] => True
  | elem :: elems => elem.Plain ∧ Datum.AllPlain elems

end

private theorem Datum.allPlain_iff {elems : List Datum} : Datum.AllPlain elems ↔ ∀ elem ∈ elems, elem.Plain := by
  induction elems with
  | nil => simp [Datum.AllPlain]
  | cons elem elems ih => rw [Datum.AllPlain, ih, List.forall_mem_cons]

theorem Datum.prints_eq_some {elems : List Datum} {texts : List Bytes} :
    Datum.prints elems = some texts ↔ List.Forall₂ (fun elem text => elem.print = some text) elems texts := by
  induction elems generalizing texts with
  | nil => simp [Datum.prints, eq_comm]
  | cons elem elems ih =>
    simp only [Datum.prints, Option.bind_eq_bind, Option.bind_eq_some_iff, List.forall₂_cons_left_iff, ih]
    constructor
    · rintro ⟨text, first, rest, others, same⟩
      cases same
      exact ⟨text, rest, first, others, rfl⟩
    · rintro ⟨text, rest, first, others, rfl⟩
      exact ⟨text, first, rest, others, rfl⟩

theorem Datum.toTexts_eq_some {elems : List Datum} {texts : List Bytes} :
    Datum.toTexts elems = some texts ↔ List.Forall₂ (fun elem text => elem.toText = some text) elems texts := by
  induction elems generalizing texts with
  | nil => simp [Datum.toTexts, eq_comm]
  | cons elem elems ih =>
    simp only [Datum.toTexts, Option.bind_eq_bind, Option.bind_eq_some_iff, List.forall₂_cons_left_iff, ih]
    constructor
    · rintro ⟨text, first, rest, others, same⟩
      cases same
      exact ⟨text, rest, first, others, rfl⟩
    · rintro ⟨text, rest, first, others, rfl⟩
      exact ⟨text, first, rest, others, rfl⟩

def isDigit (c : UInt8) : Bool := 48 ≤ c && c ≤ 57

theorem decimal_eq (n : ℕ) :
    decimal n = if n < 10 then [UInt8.ofNat (48 + n)] else decimal (n / 10) ++ [UInt8.ofNat (48 + n % 10)] := by
  have digit : ∀ k < 10, k.digitChar.toNat = 48 + k := by decide
  unfold decimal
  rw [Nat.toDigits_eq_if (by decide)]
  split_ifs with small
  · rw [List.map_singleton, digit n small]
  · rw [List.map_append, List.map_singleton, digit _ (Nat.mod_lt n (by decide))]

theorem isDigit_decimal (n : ℕ) : ∀ c ∈ decimal n, isDigit c := by
  have digit : ∀ k < 10, isDigit (UInt8.ofNat (48 + k)) := by decide
  induction n using Nat.strong_induction_on with
  | _ n ih =>
    rw [decimal_eq]
    split_ifs with small
    · simpa using digit n small
    · rw [List.forall_mem_append, List.forall_mem_singleton]
      exact ⟨ih (n / 10) (by omega), digit _ (Nat.mod_lt n (by decide))⟩

theorem decimal_injective {n m : ℕ} (same : decimal n = decimal m) : n = m := by
  have digit : ∀ j < 10, ∀ k < 10, UInt8.ofNat (48 + j) = UInt8.ofNat (48 + k) → j = k := by decide
  have nonempty : ∀ k, decimal k ≠ [] := fun k => by simp [decimal]
  induction n using Nat.strong_induction_on generalizing m with
  | _ n ih =>
    rw [decimal_eq n, decimal_eq m] at same
    split_ifs at same with smallN smallM smallM
    · exact digit n smallN m smallM (List.singleton_inj.mp same)
    · have short := congrArg List.length same
      simp [nonempty] at short
    · have short := congrArg List.length same
      simp [nonempty] at short
    · obtain ⟨front, last⟩ := List.append_inj' same rfl
      have quotients := ih (n / 10) (by omega) front
      have remainders := digit _ (Nat.mod_lt n (by decide)) _ (Nat.mod_lt m (by decide)) (List.singleton_inj.mp last)
      omega

private theorem decimal_length_le {n m : ℕ} (le : n ≤ m) : (decimal n).length ≤ (decimal m).length := by
  have length : ∀ k, (decimal k).length = (Nat.toDigits 10 k).length := fun k => by simp [decimal]
  rw [length, length]
  have positive : 0 < (Nat.toDigits 10 m).length := Nat.length_toDigits_pos
  rw [Nat.length_toDigits_le_iff (by decide) positive]
  exact lt_of_le_of_lt le ((Nat.length_toDigits_le_iff (by decide) positive).mp le_rfl)

def countOther (text : Bytes) : ℕ := text.countP fun c => !isDigit c

theorem countOther_decimal (n : ℕ) : countOther (decimal n) = 0 := by
  rw [countOther, List.countP_eq_zero]
  intro c member
  simp [isDigit_decimal n c member]

theorem countOther_append (left right : Bytes) : countOther (left ++ right) = countOther left + countOther right :=
  List.countP_append ..

private theorem countOther_flatten (texts : List Bytes) : countOther texts.flatten = (texts.map countOther).sum :=
  List.countP_flatten ..

private theorem countOther_intercalate (separator : Bytes) (texts : List Bytes) :
    countOther (separator.intercalate texts) =
      (texts.map countOther).sum + (texts.length - 1) * countOther separator := by
  induction texts with
  | nil => simp [countOther]
  | cons text texts ih =>
    cases texts with
    | nil => simp
    | cons next texts =>
      rw [List.intercalate_cons_cons, countOther_append, countOther_append, ih]
      simp only [List.map_cons, List.sum_cons, List.length_cons, Nat.add_sub_cancel, Nat.add_mul, Nat.one_mul]
      omega

mutual

/-- The characters other than digits that are printed beyond those of the string. -/
def Datum.excess : Datum → ℕ
  | .int payload => if toInt payload < 0 then 1 else 0
  | .tuple elems => 2 * (elems.length - 1) + Datum.excesses elems
  | .list elems => Datum.excesses elems
  | _ => 0

def Datum.excesses : List Datum → ℕ
  | [] => 0
  | elem :: elems => elem.excess + Datum.excesses elems

end

/-- A walk over the elements of a tuple or a list. -/
private theorem countOther_elems {elems : List Datum} {printed texts : List Bytes}
    (each : ∀ elem ∈ elems, ∀ p s, elem.print = some p → elem.toText = some s →
      countOther p = countOther s + elem.excess)
    (prints : List.Forall₂ (fun elem text => elem.print = some text) elems printed)
    (toTexts : List.Forall₂ (fun elem text => elem.toText = some text) elems texts) :
    (printed.map countOther).sum = (texts.map countOther).sum + Datum.excesses elems ∧
      printed.length = elems.length ∧ texts.length = elems.length := by
  induction prints generalizing texts with
  | nil =>
    cases toTexts
    exact ⟨rfl, rfl, rfl⟩
  | cons first _ ih =>
    cases toTexts with
    | cons second others =>
      obtain ⟨sum, printedLength, textsLength⟩ := ih (fun elem member => each elem (List.mem_cons_of_mem _ member)) others
      have head := each _ List.mem_cons_self _ _ first second
      simp only [List.map_cons, List.sum_cons, Datum.excesses, List.length_cons]
      omega

private theorem Datum.countOther_print (datum : Datum) : ∀ p s, datum.print = some p → datum.toText = some s →
    countOther p = countOther s + datum.excess := by
  induction datum with
  | int payload =>
    intro p s printed text
    cases printed
    cases text
    have dash : countOther (bytes "-") = 1 := by decide
    rw [countOther_decimal, formatInt, Datum.excess]
    split_ifs with negative
    · rw [countOther_append, countOther_decimal, dash]
    · rw [countOther_decimal]
  | false | true | nil | string | function =>
    intro p s printed text
    cases printed
    cases text
    rfl
  | tuple elems ih =>
    intro p s printed text
    simp only [Datum.print, Datum.toText] at printed text
    split_ifs at printed text with ends
    obtain ⟨printed', all, rfl⟩ := Option.map_eq_some_iff.mp printed
    obtain ⟨texts, allTexts, rfl⟩ := Option.map_eq_some_iff.mp text
    obtain ⟨sum, length, _⟩ := countOther_elems ih (Datum.prints_eq_some.mp all) (Datum.toTexts_eq_some.mp allTexts)
    have separator : countOther (bytes ", ") = 2 := by decide
    rw [countOther_intercalate, countOther_flatten, sum, length, separator, Datum.excess]
    omega
  | list elems ih =>
    intro p s printed text
    obtain ⟨printed', all, rfl⟩ := Option.map_eq_some_iff.mp printed
    obtain ⟨texts, allTexts, rfl⟩ := Option.map_eq_some_iff.mp text
    obtain ⟨sum, length, length'⟩ :=
      countOther_elems ih (Datum.prints_eq_some.mp all) (Datum.toTexts_eq_some.mp allTexts)
    simp only [countOther_append, countOther_intercalate, sum, length, length', Datum.excess]
    omega

/-- Texts that are joined by one separator are equal where none is longer than its counterpart. -/
private theorem intercalate_inj {separator : Bytes} {printed texts : List Bytes}
    (short : List.Forall₂ (fun p s : Bytes => p.length ≤ s.length) printed texts) :
    (separator.intercalate printed).length ≤ (separator.intercalate texts).length ∧
      (separator.intercalate printed = separator.intercalate texts → printed = texts) := by
  induction short with
  | nil => exact ⟨le_rfl, fun _ => rfl⟩
  | @cons p s printed texts le rest ih =>
    cases rest with
    | nil => simpa using le
    | @cons p' s' printed texts le' rest =>
      rw [List.intercalate_cons_cons, List.intercalate_cons_cons]
      refine ⟨by simp only [List.length_append]; omega, fun same => ?_⟩
      have lengths := congrArg List.length same
      simp only [List.length_append] at lengths
      rw [List.append_assoc, List.append_assoc] at same
      obtain ⟨first, others⟩ := List.append_inj same (by omega)
      rw [first, ih.2 (List.append_cancel_left others)]

/-- What the walk knows of an element without differences in other characters. -/
def Datum.Aligned (datum : Datum) : Prop := datum.excess = 0 → ∀ p s, datum.print = some p →
  datum.toText = some s → p.length ≤ s.length ∧ (p = s → datum.Plain)

private theorem aligned_elems {elems : List Datum} {printed texts : List Bytes} (each : ∀ elem ∈ elems, elem.Aligned)
    (even : Datum.excesses elems = 0)
    (prints : List.Forall₂ (fun elem text => elem.print = some text) elems printed)
    (toTexts : List.Forall₂ (fun elem text => elem.toText = some text) elems texts) :
    List.Forall₂ (fun p s : Bytes => p.length ≤ s.length) printed texts ∧
      (printed = texts → Datum.AllPlain elems) := by
  induction prints generalizing texts with
  | nil =>
    cases toTexts
    exact ⟨.nil, fun _ => trivial⟩
  | cons first _ ih =>
    cases toTexts with
    | cons second others =>
      rw [Datum.excesses] at even
      obtain ⟨le, plain⟩ := each _ List.mem_cons_self (by omega) _ _ first second
      obtain ⟨short, rest⟩ := ih (fun elem member => each elem (List.mem_cons_of_mem _ member)) (by omega) others
      refine ⟨.cons le short, fun same => ?_⟩
      obtain ⟨head, tail⟩ := List.cons.inj same
      exact ⟨plain head, rest tail⟩

private theorem Datum.aligned (datum : Datum) : datum.Aligned := by
  induction datum with
  | int payload =>
    intro even p s printed text
    cases printed
    cases text
    have positive : ¬ toInt payload < 0 := by
      intro negative
      rw [Datum.excess, if_pos negative] at even
      cases even
    have narrowed : (toInt payload).natAbs = payload % 2 ^ 32 ∧ payload % 2 ^ 32 < 2 ^ 31 := by
      rw [toInt] at positive ⊢
      omega
    rw [formatInt, if_neg positive, narrowed.1]
    refine ⟨decimal_length_le (Nat.mod_le ..), fun same => ?_⟩
    have equal := decimal_injective same
    rw [Datum.Plain]
    omega
  | false | true | nil | string | function =>
    intro _ p s printed text
    cases printed
    cases text
    exact ⟨le_rfl, fun _ => trivial⟩
  | tuple elems ih =>
    intro even p s printed text
    simp only [Datum.print, Datum.toText] at printed text
    split_ifs at printed text with ends
    obtain ⟨printed', all, rfl⟩ := Option.map_eq_some_iff.mp printed
    obtain ⟨texts, allTexts, rfl⟩ := Option.map_eq_some_iff.mp text
    rw [Datum.excess] at even
    obtain ⟨short, plain⟩ :=
      aligned_elems ih (by omega) (Datum.prints_eq_some.mp all) (Datum.toTexts_eq_some.mp allTexts)
    have few : elems.length ≤ 1 := by omega
    have length := (Datum.prints_eq_some.mp all).length_eq
    have single : ∀ {xs : List Bytes}, xs.length ≤ 1 → (bytes ", ").intercalate xs = xs.flatten := by
      intro xs le
      rcases xs with _ | ⟨x, _ | _⟩
      · rfl
      · simp
      · simp at le
    have textsFew : texts.length ≤ 1 := by rw [← short.length_eq]; omega
    rw [← single textsFew]
    obtain ⟨le, inj⟩ := @intercalate_inj (bytes ", ") _ _ short
    exact ⟨le, fun same => ⟨few, plain (inj same)⟩⟩
  | list elems ih =>
    intro even p s printed text
    obtain ⟨printed', all, rfl⟩ := Option.map_eq_some_iff.mp printed
    obtain ⟨texts, allTexts, rfl⟩ := Option.map_eq_some_iff.mp text
    obtain ⟨short, plain⟩ := aligned_elems ih even (Datum.prints_eq_some.mp all) (Datum.toTexts_eq_some.mp allTexts)
    obtain ⟨le, inj⟩ := @intercalate_inj (bytes ", ") _ _ short
    refine ⟨by simp only [List.length_append]; omega, fun same => plain (inj ?_)⟩
    exact List.append_cancel_left (List.append_cancel_right same)

theorem Datum.Plain.printsAsString {datum : Datum} (plain : datum.Plain) : PrintsAsString datum := by
  have texts : ∀ elems : List Datum, (∀ elem ∈ elems, PrintsAsString elem) →
      ∃ texts, Datum.prints elems = some texts ∧ Datum.toTexts elems = some texts := by
    intro elems each
    induction elems with
    | nil => exact ⟨[], rfl, rfl⟩
    | cons elem elems ih =>
      obtain ⟨text, printed, same⟩ := each elem List.mem_cons_self
      obtain ⟨rest, prints, toTexts⟩ := ih fun elem member => each elem (List.mem_cons_of_mem _ member)
      exact ⟨text :: rest, by simp [Datum.prints, printed, prints], by simp [Datum.toTexts, same, toTexts]⟩
  induction datum with
  | int payload =>
    have small : payload < 2 ^ 31 := plain
    refine ⟨decimal payload, ?_, rfl⟩
    have same : toInt payload = payload := by rw [toInt]; omega
    rw [Datum.print, same, formatInt, if_neg (by omega), Int.natAbs_natCast]
  | false | true | nil | string | function => exact ⟨_, rfl, rfl⟩
  | tuple elems ih =>
    obtain ⟨few, all⟩ := plain
    obtain ⟨found, prints, toTexts⟩ := texts elems fun elem member => ih elem member (Datum.allPlain_iff.mp all elem member)
    have length := (Datum.prints_eq_some.mp prints).length_eq
    have ends : countsTo elems.length = Bool.true := by simp only [countsTo, decide_eq_true_eq]; omega
    refine ⟨found.flatten, ?_, by rw [Datum.toText, if_pos ends, toTexts]; rfl⟩
    rw [Datum.print, if_pos ends, prints]
    rcases found with _ | ⟨x, _ | _⟩
    · rfl
    · simp
    · simp only [List.length_cons] at length
      omega
  | list elems ih =>
    obtain ⟨found, prints, toTexts⟩ := texts elems fun elem member => ih elem member
      (Datum.allPlain_iff.mp plain elem member)
    exact ⟨_, by rw [Datum.print, prints]; rfl, by rw [Datum.toText, toTexts]; rfl⟩

/-- The two texts of a term agree if and only if its integers fit an `int` and its tuples have at most one
element. -/
theorem printsAsString_iff (datum : Datum) : PrintsAsString datum ↔ datum.Plain := by
  refine ⟨?_, Datum.Plain.printsAsString⟩
  rintro ⟨text, printed, same⟩
  have count := datum.countOther_print text text printed same
  exact (datum.aligned (by omega) text text printed same).2 rfl

/-- `(1, 2)` is printed as `1, 2` and converted to `12`. -/
theorem printsAsString_fails : ¬ ∀ datum, PrintsAsString datum := by
  intro all
  obtain ⟨text, printed, same⟩ := all (.tuple [.int 1, .int 2])
  have different : (Datum.tuple [.int 1, .int 2]).print ≠ (Datum.tuple [.int 1, .int 2]).toText := by decide
  exact different (printed.trans same.symm)

end Owl.Runtime
