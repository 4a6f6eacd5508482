import Owl.Model.Runtime.Equality
import Owl.Soundness.Slices
import Owl.ToMathlib.Except

/-! # What the comparison of terms decides

A term denotes a content: a finite tree that forgets addresses, but for functions. The comparison agrees with
equality of contents whenever it returns. It does not return from two kinds of pairs: a constant beside an
object with the tag that the constant's bits show, since the constant has no address, and two tuples of 255
equal elements at different addresses, since the counter has eight bits.
-/

namespace Owl.Runtime

open Owl.Lists
open Compiler (Bytes bytes)

inductive Content where
  | int (payload : ℕ)
  | «false»
  | «true»
  | nil
  | string (text : Bytes)
  | function (address : ℕ)
  | tuple (parts : List Content)
  | list (parts : List Content)

/-- Induction over contents; a list of parts offers the hypothesis of each member. -/
@[elab_as_elim, induction_eliminator]
theorem Content.inductionOn {motive : Content → Prop} (int : ∀ payload, motive (.int payload))
    (false : motive .false) (true : motive .true) (nil : motive .nil) (string : ∀ text, motive (.string text))
    (function : ∀ address, motive (.function address))
    (tuple : ∀ parts, (∀ part ∈ parts, motive part) → motive (.tuple parts))
    (list : ∀ parts, (∀ part ∈ parts, motive part) → motive (.list parts)) (content : Content) :
    motive content :=
  Content.rec (motive_2 := fun parts => ∀ part ∈ parts, motive part) int false true nil string function tuple
    list (fun _ member => absurd member List.not_mem_nil)
    (fun _ _ head tail _ member => (List.mem_cons.mp member).elim (· ▸ head) (tail _)) content

def Content.inner : Content → List Content
  | tuple parts => parts
  | list parts => parts
  | _ => []

private theorem Content.innerInduction {motive : Content → Prop}
    (step : ∀ content : Content, (∀ part ∈ content.inner, motive part) → motive content) (content : Content) :
    motive content := by
  induction content with
  | int | false | true | nil | string | function =>
    exact step _ fun _ member => absurd member List.not_mem_nil
  | tuple parts each | list parts each => exact step _ each

/-- The elements of a list, in order. -/
def elemsOf (rrb : Rrb Term) : List Term := rrb.root.toList rrb.height ++ (rrb.tail.elements.getD [])

/-- A list whose tree and tail have the shape that lookup relies on. -/
def IsList (rrb : Rrb Term) : Prop := ∃ inTree inTail, rrb.Contains Covers inTree inTail

mutual

/-- A term is well-formed and denotes a content. -/
def Content.At (store : Store) : Content → Term → Prop
  | .int payload, term => tagOf term = Tag.int.bits ∧ extractPtr term = payload
  | .false, term => term = OWL_FALSE
  | .true, term => term = OWL_TRUE
  | .nil, term => term = OWL_NIL
  | .string text, term => tagOf term = Tag.string.bits ∧ store (extractPtr term) = some (.string text)
  | .function address, term =>
      tagOf term = Tag.function.bits ∧ store (extractPtr term) = some .function ∧ extractPtr term = address
  | .tuple parts, term => tagOf term = Tag.tuple.bits ∧ ∃ elems,
      store (extractPtr term) = some (.tuple (UInt64.ofNat elems.length :: elems)) ∧ elems.length ≤ 255 ∧
        Content.AllAt store parts elems
  | .list parts, term => tagOf term = Tag.list.bits ∧ ∃ rrb,
      store (extractPtr term) = some (.list rrb) ∧ IsList rrb ∧ Content.AllAt store parts (elemsOf rrb)

def Content.AllAt (store : Store) : List Content → List Term → Prop
  | [], [] => True
  | part :: parts, term :: terms => part.At store term ∧ Content.AllAt store parts terms
  | _, _ => False

end

/-- The elements of a tuple or a list. -/
def Store.parts (store : Store) (term : Term) : Option (List Term) :=
  if tagOf term = Tag.tuple.bits then
    match store (extractPtr term) with
    | some (.tuple (_ :: elems)) => some elems
    | _ => none
  else if tagOf term = Tag.list.bits then
    match store (extractPtr term) with
    | some (.list rrb) => some (elemsOf rrb)
    | _ => none
  else none

/-- Two terms denote the same content. -/
def Same (store : Store) (left right : Term) : Prop := ∃ content, Content.At store content left ∧
  Content.At store content right

/-- A constant beside an object of the tag in its bits, or two tuples whose elements the counter cannot pass. -/
inductive Clash (store : Store) : Term → Term → Prop
  | constantLeft {constant term : Term} (overlaps : constant = OWL_TRUE ∨ constant = OWL_FALSE)
      (tag : tagOf constant = tagOf term) (object : constant ≠ term) : Clash store constant term
  | constantRight {constant term : Term} (overlaps : constant = OWL_TRUE ∨ constant = OWL_FALSE)
      (tag : tagOf term = tagOf constant) (object : term ≠ constant) : Clash store term constant
  | wide {left right : Term} {lefts rights : List Term} (different : left ≠ right)
      (leftTag : tagOf left = Tag.tuple.bits) (rightTag : tagOf right = Tag.tuple.bits)
      (leftParts : store.parts left = some lefts) (rightParts : store.parts right = some rights)
      (length : lefts.length = 255) (same : List.Forall₂ (Same store) lefts rights) : Clash store left right

/-- The pairs that the comparison of two terms gets to: itself, and element by element those of two tuples or
two lists of one length at different addresses, as long as all elements before denote the same contents. -/
inductive Reaches (store : Store) : Term → Term → Term → Term → Prop
  | refl (left right : Term) : Reaches store left right left right
  | part {left right x y left' right' : Term} {before after before' after' : List Term}
      (different : left ≠ right) (tag : tagOf left = tagOf right)
      (leftParts : store.parts left = some (before ++ x :: after))
      (rightParts : store.parts right = some (before' ++ y :: after')) (length : after.length = after'.length)
      (earlier : List.Forall₂ (Same store) before before') (rest : Reaches store x y left' right') :
      Reaches store left right left' right'

/-- The comparison meets no such pair. -/
def Clear (store : Store) (left right : Term) : Prop :=
  ∀ left' right', Reaches store left right left' right' → ¬ Clash store left' right'

/-- The comparison of two terms returns whether their contents are equal. -/
def Decides (store : Store) (left right : Term) (leftContent rightContent : Content) : Prop :=
  ∃ fuel equal, termsEq store fuel left right = .ok equal ∧ (equal = true ↔ leftContent = rightContent)

def Content.tag : Content → UInt64
  | .int _ => Tag.int.bits
  | .false => Tag.tuple.bits
  | .true => Tag.string.bits
  | .nil => 6
  | .string _ => Tag.string.bits
  | .function _ => Tag.function.bits
  | .tuple _ => Tag.tuple.bits
  | .list _ => Tag.list.bits

section Denotation

variable {store : Store} {content : Content} {term : Term}

theorem Content.At.tag (denotes : content.At store term) : tagOf term = content.tag := by
  cases content with
  | false | true | nil =>
    cases denotes
    rfl
  | int | string | function | tuple | list => exact denotes.1

private theorem elemsOf_eq {rrb : Rrb Term} {inTree inTail : List Term} (contains : rrb.Contains Covers inTree inTail) :
    elemsOf rrb = inTree ++ inTail := by
  rw [elemsOf, contains.tail]
  obtain ⟨rfl, null⟩ | ⟨-, elements⟩ := contains.tree
  · rw [null]
    cases rrb.height <;> rfl
  · rw [elements]
    rfl

private theorem elemsOf_nth {rrb : Rrb Term} (list : IsList rrb) (i : ℕ) : rrbNth rrb i = some (elemsOf rrb)[i]? := by
  obtain ⟨inTree, inTail, contains⟩ := list
  rw [elemsOf_eq contains, rrbNth_eq covers_admissible contains]

theorem elemsOf_count {rrb : Rrb Term} (list : IsList rrb) :
    rrbCount rrb = (elemsOf rrb).length ∧ rrbCount rrb < 2 ^ 32 := by
  obtain ⟨inTree, inTail, contains⟩ := list
  rw [elemsOf_eq contains, List.length_append]
  exact ⟨contains.cnt, contains.word⟩

theorem allAt_iff {parts : List Content} {terms : List Term} :
    Content.AllAt store parts terms ↔ List.Forall₂ (Content.At store) parts terms := by
  induction parts generalizing terms with
  | nil => cases terms <;> simp [Content.AllAt]
  | cons part parts ih => cases terms <;> simp [Content.AllAt, ih]

private theorem allAt_unique {parts parts' : List Content} {terms : List Term}
    (each : ∀ part ∈ parts, ∀ content' term, part.At store term → content'.At store term → part = content')
    (denotes : List.Forall₂ (Content.At store) parts terms)
    (denotes' : List.Forall₂ (Content.At store) parts' terms) : parts = parts' := by
  induction denotes generalizing parts' with
  | nil =>
    cases denotes'
    rfl
  | cons head _ ih =>
    cases denotes' with
    | cons head' tail' =>
      rw [each _ List.mem_cons_self _ _ head head',
        ih (fun other member => each other (List.mem_cons_of_mem _ member)) tail']

/-- An object has an address, and no constant does. -/
theorem constant_absent (null : store 0 = none) {stored : Stored} (found : store (extractPtr term) = some stored) :
    term ≠ OWL_FALSE ∧ term ≠ OWL_TRUE := by
  constructor
  · rintro rfl
    rw [show extractPtr OWL_FALSE = 0 from rfl, null] at found
    cases found
  · rintro rfl
    rw [show extractPtr OWL_TRUE = 0 from rfl, null] at found
    cases found

/-- A term denotes one content. -/
theorem Content.At.unique (null : store 0 = none) : ∀ {content content' : Content} {term : Term},
    content.At store term → content'.At store term → content = content' := by
  intro content
  induction content with
  | int payload =>
    intro content' term denotes denotes'
    cases content'
    case int => rw [← denotes.2, ← denotes'.2]
    all_goals exact absurd (denotes.tag.symm.trans denotes'.tag) (by simp only [Content.tag]; decide)
  | false =>
    intro content' term denotes denotes'
    cases content'
    case false => rfl
    case tuple =>
      obtain ⟨-, elems, found, -⟩ := denotes'
      exact absurd denotes (constant_absent null found).1
    all_goals exact absurd (denotes.tag.symm.trans denotes'.tag) (by simp only [Content.tag]; decide)
  | true =>
    intro content' term denotes denotes'
    cases content'
    case true => rfl
    case string => exact absurd denotes (constant_absent null denotes'.2).2
    all_goals exact absurd (denotes.tag.symm.trans denotes'.tag) (by simp only [Content.tag]; decide)
  | nil =>
    intro content' term denotes denotes'
    cases content'
    case nil => rfl
    all_goals exact absurd (denotes.tag.symm.trans denotes'.tag) (by simp only [Content.tag]; decide)
  | string text =>
    intro content' term denotes denotes'
    cases content'
    case string =>
      cases denotes.2.symm.trans denotes'.2
      rfl
    case true => exact absurd denotes' (constant_absent null denotes.2).2
    all_goals exact absurd (denotes.tag.symm.trans denotes'.tag) (by simp only [Content.tag]; decide)
  | function address =>
    intro content' term denotes denotes'
    cases content'
    case function => rw [← denotes.2.2, ← denotes'.2.2]
    all_goals exact absurd (denotes.tag.symm.trans denotes'.tag) (by simp only [Content.tag]; decide)
  | tuple parts each =>
    intro content' term denotes denotes'
    cases content'
    case tuple =>
      obtain ⟨-, elems, found, -, inner⟩ := denotes
      obtain ⟨-, elems', found', -, inner'⟩ := denotes'
      obtain rfl : elems = elems' :=
        (List.cons.inj (Stored.tuple.inj (Option.some.inj (found.symm.trans found')))).2
      rw [allAt_unique (fun part member _ _ => each part member) (allAt_iff.mp inner) (allAt_iff.mp inner')]
    case false =>
      obtain ⟨-, elems, found, -⟩ := denotes
      exact absurd denotes' (constant_absent null found).1
    all_goals exact absurd (denotes.tag.symm.trans denotes'.tag) (by simp only [Content.tag]; decide)
  | list parts each =>
    intro content' term denotes denotes'
    cases content'
    case list =>
      obtain ⟨-, rrb, found, -, inner⟩ := denotes
      obtain ⟨-, rrb', found', -, inner'⟩ := denotes'
      cases found.symm.trans found'
      rw [allAt_unique (fun part member _ _ => each part member) (allAt_iff.mp inner) (allAt_iff.mp inner')]
    all_goals exact absurd (denotes.tag.symm.trans denotes'.tag) (by simp only [Content.tag]; decide)

end Denotation

/-- The loop reads the elements of two sequences from an index on. -/
def Reads (pair : ℕ → Except Halt (Term × Term)) : ℕ → List Term → List Term → Prop
  | _, [], [] => True
  | i, left :: lefts, right :: rights => pair i = .ok (left, right) ∧ Reads pair (i + 1) lefts rights
  | _, _, _ => False

/-- A comparison that loops over the elements of both terms. -/
structure Walk (store : Store) (left right : Term) (lefts rights : List Term) (width start : ℕ)
    (pair : ℕ → Except Halt (Term × Term)) : Prop where
  runs : ∀ fuel, termsEq store (fuel + 1) left right =
    elemsEq store fuel width (start + lefts.length) pair start
  reads : Reads pair start lefts rights
  fits : start + lefts.length ≤ 2 ^ width
  /-- The counter passes the end but for the longest tuples, and from those it goes back to their sizes. -/
  wraps : start + lefts.length = 2 ^ width → start = 1 ∧ (∃ word, pair 0 = .ok (word, word)) ∧
    tagOf left = Tag.tuple.bits ∧ lefts.length = 255
  full : tagOf left = Tag.tuple.bits → lefts.length = 255 → start + lefts.length = 2 ^ width

/-- What a comparison of two terms does first: it is decided at once, it follows the address of a constant, or
it loops over the elements. -/
inductive Comparison (store : Store) (left right : Term) (leftContent rightContent : Content) : Prop
  | decided (equal : Bool) (exact : equal = true ↔ leftContent = rightContent)
      (runs : ∀ fuel, termsEq store (fuel + 1) left right = .ok equal)
  | constant (overlaps : (left = OWL_TRUE ∨ left = OWL_FALSE) ∨ right = OWL_TRUE ∨ right = OWL_FALSE)
      (tag : tagOf left = tagOf right) (different : left ≠ right)
  | parts {lefts rights : List Term} (different : left ≠ right) (tag : tagOf left = tagOf right)
      (leftParts : store.parts left = some lefts) (rightParts : store.parts right = some rights)
      (length : lefts.length = rights.length)

section Comparing

variable {store : Store} {left right : Term} {leftContent rightContent : Content}

private theorem reads_get {pair : ℕ → Except Halt (Term × Term)} {i : ℕ} {lefts rights : List Term}
    (length : lefts.length = rights.length)
    (each : ∀ k x y, lefts[k]? = some x → rights[k]? = some y → pair (i + k) = .ok (x, y)) :
    Reads pair i lefts rights := by
  induction lefts generalizing i rights with
  | nil =>
    cases rights with
    | nil => trivial
    | cons => contradiction
  | cons x lefts ih =>
    cases rights with
    | nil => contradiction
    | cons y rights =>
      refine ⟨each 0 x y rfl rfl, ih (Nat.succ.inj length) fun k x' y' found found' => ?_⟩
      rw [Nat.add_assoc, Nat.add_comm 1 k]
      exact each (k + 1) x' y' found found'

/-- Behind the test for identity and the one for tags. -/
theorem termsEq_opened (different : left ≠ right) (tag : tagOf left = tagOf right) (fuel : ℕ) :
    termsEq store (fuel + 1) left right =
      if tagOf left = Tag.int.bits then .ok (left = right)
      else if tagOf left = Tag.tuple.bits then do
        let leftAry ← store.tupleAt left
        let rightAry ← store.tupleAt right
        let leftSize := (← wordAt leftAry 0).toUInt8
        let rightSize := (← wordAt rightAry 0).toUInt8
        if leftSize ≠ rightSize then return false
        else elemsEq store fuel 8 (leftSize.toNat + 1) (wordsAt leftAry rightAry) 1
      else if tagOf left = Tag.list.bits then do
        let leftList ← store.listAt left
        let rightList ← store.listAt right
        if rrbCount leftList ≠ rrbCount rightList then return false
        else elemsEq store fuel 32 (rrbCount leftList) (nthsAt leftList rightList) 0
      else if tagOf left = Tag.string.bits then do
        let leftStr ← store.stringAt left
        let rightStr ← store.stringAt right
        return leftStr = rightStr
      else .ok false := by
  rw [termsEq, if_neg different, if_neg (not_not.mpr tag)]

theorem toUInt8_ofNat {n : ℕ} (small : n ≤ 255) : (UInt64.ofNat n).toUInt8.toNat = n := by
  rw [UInt64.toNat_toUInt8, UInt64.toNat_ofNat_of_lt' (by simp only [UInt64.size]; omega)]
  omega

section Tuples

variable {lefts rights : List Term} (different : left ≠ right) (leftTag : tagOf left = Tag.tuple.bits)
  (rightTag : tagOf right = Tag.tuple.bits)
  (leftFound : store (extractPtr left) = some (.tuple (UInt64.ofNat lefts.length :: lefts)))
  (rightFound : store (extractPtr right) = some (.tuple (UInt64.ofNat rights.length :: rights)))
  (leftSize : lefts.length ≤ 255)
include different leftTag rightTag leftFound rightFound leftSize

private theorem termsEq_tuples (fuel : ℕ) : termsEq store (fuel + 1) left right =
    if (UInt64.ofNat lefts.length).toUInt8 ≠ (UInt64.ofNat rights.length).toUInt8 then .ok false
    else elemsEq store fuel 8 (lefts.length + 1)
      (wordsAt (UInt64.ofNat lefts.length :: lefts) (UInt64.ofNat rights.length :: rights)) 1 := by
  rw [termsEq_opened different (leftTag.trans rightTag.symm), leftTag, if_neg (by decide), if_pos rfl,
    Store.tupleAt, leftFound, Store.tupleAt, rightFound]
  simp only [Except.ok_bind, wordAt, List.getElem?_cons_zero, toUInt8_ofNat leftSize]
  rfl

private theorem walk_tuples (length : lefts.length = rights.length) : Walk store left right lefts rights 8 1
    (wordsAt (UInt64.ofNat lefts.length :: lefts) (UInt64.ofNat rights.length :: rights)) where
  runs fuel := by
    rw [termsEq_tuples different leftTag rightTag leftFound rightFound leftSize,
      if_neg (not_not.mpr (by rw [length])), Nat.add_comm]
  reads := by
    refine reads_get length fun k x y found found' => ?_
    rw [Nat.add_comm, wordsAt, wordAt, wordAt, List.getElem?_cons_succ, List.getElem?_cons_succ, found, found']
    rfl
  fits := by omega
  wraps full := by
    refine ⟨rfl, ⟨UInt64.ofNat rights.length, ?_⟩, leftTag, by omega⟩
    rw [wordsAt, length]
    rfl
  full _ long := by omega

end Tuples

section Lists

variable {leftList rightList : Rrb Term} (different : left ≠ right) (leftTag : tagOf left = Tag.list.bits)
  (rightTag : tagOf right = Tag.list.bits) (leftFound : store (extractPtr left) = some (.list leftList))
  (rightFound : store (extractPtr right) = some (.list rightList)) (leftShape : IsList leftList)
  (rightShape : IsList rightList)
include different leftTag rightTag leftFound rightFound leftShape rightShape

private theorem termsEq_lists (fuel : ℕ) : termsEq store (fuel + 1) left right =
    if (elemsOf leftList).length ≠ (elemsOf rightList).length then .ok false
    else elemsEq store fuel 32 (elemsOf leftList).length (nthsAt leftList rightList) 0 := by
  rw [termsEq_opened different (leftTag.trans rightTag.symm), leftTag, if_neg (by decide), if_neg (by decide),
    if_pos rfl, Store.listAt, leftFound, Store.listAt, rightFound, ← (elemsOf_count leftShape).1,
    ← (elemsOf_count rightShape).1]
  rfl

private theorem walk_lists (length : (elemsOf leftList).length = (elemsOf rightList).length) :
    Walk store left right (elemsOf leftList) (elemsOf rightList) 32 0 (nthsAt leftList rightList) := by
  obtain ⟨count, word⟩ := elemsOf_count leftShape
  rw [count] at word
  exact {
    runs := fun fuel => by
      rw [termsEq_lists different leftTag rightTag leftFound rightFound leftShape rightShape,
        if_neg (not_not.mpr length), Nat.zero_add]
    reads := by
      refine reads_get length fun k x y found found' => ?_
      rw [Nat.zero_add, nthsAt, nthAt, nthAt, elemsOf_nth leftShape, elemsOf_nth rightShape, found, found']
      rfl
    fits := by omega
    wraps := fun full => absurd full (by omega)
    full := fun tuple => absurd (leftTag.symm.trans tuple) (by decide) }

end Lists

section Constants

variable (null : store 0 = none)
include null

/-- A constant beside an object: the object is read, and then address zero, or the other way round. -/
private theorem termsEq_constant {constant term : Term} {content : Content}
    (overlaps : constant = OWL_TRUE ∨ constant = OWL_FALSE) (denotes : content.At store term)
    (tag : tagOf constant = tagOf term) (object : constant ≠ term) (fuel : ℕ) :
    termsEq store (fuel + 1) constant term = .error .badAddress ∧
      termsEq store (fuel + 1) term constant = .error .badAddress := by
  rw [termsEq_opened object tag, termsEq_opened (Ne.symm object) tag.symm, ← tag]
  have contentTag := tag.trans denotes.tag
  obtain rfl | rfl := overlaps
  · rw [show tagOf OWL_TRUE = Tag.string.bits from rfl] at contentTag ⊢
    obtain ⟨text, string⟩ : ∃ text, store (extractPtr term) = some (.string text) := by
      cases content
      case string text => exact ⟨text, denotes.2⟩
      case true => exact absurd denotes.symm object
      all_goals exact absurd contentTag (by simp only [Content.tag]; decide)
    rw [if_neg (by decide), if_neg (by decide), if_neg (by decide), if_pos rfl, if_neg (by decide),
      if_neg (by decide), if_neg (by decide), if_pos rfl]
    simp only [Store.stringAt, show extractPtr OWL_TRUE = 0 from rfl, null, string]
    exact ⟨rfl, rfl⟩
  · rw [show tagOf OWL_FALSE = Tag.tuple.bits from rfl] at contentTag ⊢
    obtain ⟨words, tuple⟩ : ∃ words, store (extractPtr term) = some (.tuple words) := by
      cases content
      case tuple =>
        obtain ⟨-, elems, found, -⟩ := denotes
        exact ⟨_, found⟩
      case false => exact absurd denotes.symm object
      all_goals exact absurd contentTag (by simp only [Content.tag]; decide)
    rw [if_neg (by decide), if_pos rfl, if_neg (by decide), if_pos rfl]
    simp only [Store.tupleAt, show extractPtr OWL_FALSE = 0 from rfl, null, tuple]
    exact ⟨rfl, rfl⟩

theorem constant_stuck (leftDenotes : leftContent.At store left) (rightDenotes : rightContent.At store right)
    (overlaps : (left = OWL_TRUE ∨ left = OWL_FALSE) ∨ right = OWL_TRUE ∨ right = OWL_FALSE)
    (tag : tagOf left = tagOf right) (different : left ≠ right) (fuel : ℕ) (equal : Bool) :
    termsEq store fuel left right ≠ .ok equal := by
  intro result
  cases fuel with
  | zero => cases result
  | succ fuel =>
    obtain overlaps | overlaps := overlaps
    · rw [(termsEq_constant null overlaps rightDenotes tag different fuel).1] at result
      cases result
    · rw [(termsEq_constant null overlaps leftDenotes tag.symm (Ne.symm different) fuel).2] at result
      cases result

end Constants

/-- The comparison of two well-formed terms. -/
theorem comparison (null : store 0 = none) (leftDenotes : leftContent.At store left)
    (rightDenotes : rightContent.At store right) : Comparison store left right leftContent rightContent := by
  by_cases same : left = right
  · subst same
    refine .decided true (iff_of_true rfl (leftDenotes.unique null rightDenotes)) fun fuel => ?_
    rw [termsEq, if_pos rfl]
  by_cases tag : tagOf left = tagOf right
  · have opened := @termsEq_opened store left right same tag
    have apart (differ : leftContent.tag ≠ rightContent.tag) :
        Comparison store left right leftContent rightContent :=
      absurd (leftDenotes.tag.symm.trans (tag.trans rightDenotes.tag)) differ
    have leftTag := leftDenotes.tag
    cases leftContent
    case int payload =>
      cases rightContent
      case int payload' =>
        refine .decided false (iff_of_false Bool.false_ne_true fun equal => same ?_) fun fuel => ?_
        · exact term_ext (leftDenotes.2.trans ((Content.int.inj equal).trans rightDenotes.2.symm)) tag
        · rw [opened, leftTag, Content.tag, if_pos rfl, decide_eq_false same]
      all_goals exact apart (by simp only [Content.tag]; decide)
    case false =>
      cases rightContent
      case false => exact absurd (leftDenotes.trans rightDenotes.symm) same
      case tuple =>
        obtain rfl : left = OWL_FALSE := leftDenotes
        exact .constant (.inl (.inr rfl)) tag same
      all_goals exact apart (by simp only [Content.tag]; decide)
    case true =>
      cases rightContent
      case true => exact absurd (leftDenotes.trans rightDenotes.symm) same
      case string =>
        obtain rfl : left = OWL_TRUE := leftDenotes
        exact .constant (.inl (.inl rfl)) tag same
      all_goals exact apart (by simp only [Content.tag]; decide)
    case nil =>
      cases rightContent
      case nil => exact absurd (leftDenotes.trans rightDenotes.symm) same
      all_goals exact apart (by simp only [Content.tag]; decide)
    case string text =>
      cases rightContent
      case string text' =>
        refine .decided (text = text') (by rw [decide_eq_true_iff, Content.string.injEq]) fun fuel => ?_
        rw [opened, leftTag, Content.tag, if_neg (by decide), if_neg (by decide), if_neg (by decide), if_pos rfl,
          Store.stringAt, leftDenotes.2, Store.stringAt, rightDenotes.2]
        rfl
      case true =>
        obtain rfl : right = OWL_TRUE := rightDenotes
        exact .constant (.inr (.inl rfl)) tag same
      all_goals exact apart (by simp only [Content.tag]; decide)
    case function address =>
      cases rightContent
      case function address' =>
        refine .decided false (iff_of_false Bool.false_ne_true fun equal => same ?_) fun fuel => ?_
        · exact term_ext (leftDenotes.2.2.trans ((Content.function.inj equal).trans rightDenotes.2.2.symm)) tag
        · rw [opened, leftTag, Content.tag, if_neg (by decide), if_neg (by decide), if_neg (by decide),
            if_neg (by decide)]
      all_goals exact apart (by simp only [Content.tag]; decide)
    case tuple parts =>
      cases rightContent
      case tuple parts' =>
        obtain ⟨leftTag, lefts, leftFound, leftSize, leftInner⟩ := leftDenotes
        obtain ⟨rightTag, rights, rightFound, rightSize, rightInner⟩ := rightDenotes
        by_cases length : lefts.length = rights.length
        · exact .parts same tag (by rw [Store.parts, if_pos leftTag, leftFound])
            (by rw [Store.parts, if_pos rightTag, rightFound]) length
        · refine .decided false (iff_of_false Bool.false_ne_true fun equal => length ?_) fun fuel => ?_
          · rw [← (allAt_iff.mp leftInner).length_eq, ← (allAt_iff.mp rightInner).length_eq,
              Content.tuple.inj equal]
          · rw [termsEq_tuples same leftTag rightTag leftFound rightFound leftSize, if_pos]
            intro sizes
            have numbers := congrArg UInt8.toNat sizes
            rw [toUInt8_ofNat leftSize, toUInt8_ofNat rightSize] at numbers
            exact length numbers
      case false =>
        obtain rfl : right = OWL_FALSE := rightDenotes
        exact .constant (.inr (.inr rfl)) tag same
      all_goals exact apart (by simp only [Content.tag]; decide)
    case list parts =>
      cases rightContent
      case list parts' =>
        obtain ⟨leftTag, leftList, leftFound, leftShape, leftInner⟩ := leftDenotes
        obtain ⟨rightTag, rightList, rightFound, rightShape, rightInner⟩ := rightDenotes
        by_cases length : (elemsOf leftList).length = (elemsOf rightList).length
        · exact .parts same tag (by rw [Store.parts, leftTag, if_neg (by decide), if_pos rfl, leftFound])
            (by rw [Store.parts, rightTag, if_neg (by decide), if_pos rfl, rightFound]) length
        · refine .decided false (iff_of_false Bool.false_ne_true fun equal => length ?_) fun fuel => ?_
          · rw [← (allAt_iff.mp leftInner).length_eq, ← (allAt_iff.mp rightInner).length_eq,
              Content.list.inj equal]
          · rw [termsEq_lists same leftTag rightTag leftFound rightFound leftShape rightShape, if_pos length]
      all_goals exact apart (by simp only [Content.tag]; decide)
  · refine .decided false (iff_of_false Bool.false_ne_true ?_) fun fuel => ?_
    · rintro rfl
      exact tag (leftDenotes.tag.trans rightDenotes.tag.symm)
    · rw [termsEq, if_neg same, if_pos tag]

/-- What has elements denotes a tuple or a list of them. -/
theorem Content.At.elements {content : Content} {term : Term} {elems : List Term} (null : store 0 = none)
    (denotes : content.At store term) (found : store.parts term = some elems) :
    ∃ parts, List.Forall₂ (Content.At store) parts elems ∧
      ((content = .tuple parts ∧ tagOf term = Tag.tuple.bits ∧ elems.length ≤ 255 ∧
          store (extractPtr term) = some (.tuple (UInt64.ofNat elems.length :: elems))) ∨
        (content = .list parts ∧ tagOf term = Tag.list.bits ∧ ∃ rrb, IsList rrb ∧ elems = elemsOf rrb ∧
          store (extractPtr term) = some (.list rrb))) := by
  have tag := denotes.tag
  cases content with
  | int | true | nil | string | function =>
    rw [Store.parts, tag, if_neg (by simp only [Content.tag]; decide), if_neg (by simp only [Content.tag]; decide)]
      at found
    cases found
  | false =>
    obtain rfl : term = OWL_FALSE := denotes
    rw [Store.parts, show tagOf OWL_FALSE = Tag.tuple.bits from rfl, if_pos rfl,
      show extractPtr OWL_FALSE = 0 from rfl, null] at found
    cases found
  | tuple parts =>
    obtain ⟨tuple, elems', stored, size, inner⟩ := denotes
    rw [Store.parts, if_pos tuple, stored] at found
    obtain rfl := Option.some.inj found
    exact ⟨parts, allAt_iff.mp inner, .inl ⟨rfl, tuple, size, stored⟩⟩
  | list parts =>
    obtain ⟨list, rrb, stored, shape, inner⟩ := denotes
    rw [Store.parts, list, if_neg (by decide), if_pos rfl, stored] at found
    obtain rfl := Option.some.inj found
    exact ⟨parts, allAt_iff.mp inner, .inr ⟨rfl, list, rrb, shape, rfl, stored⟩⟩

/-- Two terms with as many elements are compared by a loop. -/
theorem walk {lefts rights : List Term} (null : store 0 = none) (leftDenotes : leftContent.At store left)
    (rightDenotes : rightContent.At store right) (different : left ≠ right) (tag : tagOf left = tagOf right)
    (leftParts : store.parts left = some lefts) (rightParts : store.parts right = some rights)
    (length : lefts.length = rights.length) :
    (∃ width start pair, Walk store left right lefts rights width start pair) ∧
      ∃ leftContents rightContents, List.Forall₂ (Content.At store) leftContents lefts ∧
        List.Forall₂ (Content.At store) rightContents rights ∧
        (leftContents = rightContents ↔ leftContent = rightContent) ∧ leftContents = leftContent.inner := by
  obtain ⟨leftContents, leftInner, ⟨rfl, leftTag, leftSize, leftFound⟩ | ⟨rfl, leftTag, leftList, leftShape, rfl,
    leftFound⟩⟩ :=
    leftDenotes.elements null leftParts
  · obtain ⟨rightContents, rightInner, ⟨rfl, rightTag, rightSize, rightFound⟩ | ⟨-, rightTag, -⟩⟩ :=
      rightDenotes.elements null rightParts
    · exact ⟨⟨_, _, _, walk_tuples different leftTag rightTag leftFound rightFound leftSize length⟩,
        leftContents, rightContents, leftInner, rightInner, ⟨congrArg _, Content.tuple.inj⟩, rfl⟩
    · exact absurd (leftTag.symm.trans (tag.trans rightTag)) (by decide)
  · obtain ⟨rightContents, rightInner, ⟨-, rightTag, -⟩ | ⟨rfl, rightTag, rightList, rightShape, rfl, rightFound⟩⟩ :=
      rightDenotes.elements null rightParts
    · exact absurd (leftTag.symm.trans (tag.trans rightTag)) (by decide)
    · exact ⟨⟨_, _, _, walk_lists different leftTag rightTag leftFound rightFound leftShape rightShape length⟩,
        leftContents, rightContents, leftInner, rightInner, ⟨congrArg _, Content.list.inj⟩, rfl⟩

end Comparing

/-- With some fuel, every comparison that returns has decided equality of contents. -/
def Correct (store : Store) (fuel : ℕ) : Prop :=
  ∀ {left right leftContent rightContent equal}, Content.At store leftContent left →
    Content.At store rightContent right → termsEq store fuel left right = .ok equal →
      (equal = true ↔ leftContent = rightContent)

section Loops

variable {store : Store} {fuel width stop : ℕ} {pair : ℕ → Except Halt (Term × Term)} {lefts rights : List Term}

theorem elemsEq_step {i : ℕ} {x y : Term} (inside : i < stop) (read : pair i = .ok (x, y)) :
    elemsEq store (fuel + 1) width stop pair i = (do
      let equal ← termsEq store fuel x y
      if equal then elemsEq store fuel width stop pair ((i + 1) % 2 ^ width) else return false) := by
  rw [elemsEq, if_pos inside, read]
  rfl

private theorem elemsEq_done (fuel width stop : ℕ) (pair : ℕ → Except Halt (Term × Term)) :
    elemsEq store (fuel + 1) width stop pair stop = .ok true := by
  rw [elemsEq, if_neg (Nat.lt_irrefl stop)]

private theorem termsEq_self {term : Term} {equal : Bool} (result : termsEq store fuel term term = .ok equal) :
    equal = true := by
  cases fuel with
  | zero => cases result
  | succ fuel =>
    rw [termsEq, if_pos rfl] at result
    exact (Except.ok.inj result).symm

/-- The counter goes on before the end, and at the end if it does not wrap around there. -/
private theorem elemsEq_next {i : ℕ} {x : Term} {leftContents rightContents : List Content}
    (leftDenotes : List.Forall₂ (Content.At store) leftContents lefts)
    (rightDenotes : List.Forall₂ (Content.At store) rightContents rights) (reads : Reads pair (i + 1) lefts rights)
    (ends : stop = i + (x :: lefts).length) (fits : stop ≤ 2 ^ width)
    (straight : stop < 2 ^ width ∨ leftContents ≠ rightContents) : (i + 1) % 2 ^ width = i + 1 := by
  refine Nat.mod_eq_of_lt ?_
  cases leftDenotes with
  | nil =>
    rw [List.length_singleton] at ends
    cases rights with
    | cons => exact reads.elim
    | nil =>
      cases rightDenotes
      exact ends ▸ straight.resolve_right (not_not.mpr rfl)
  | cons =>
    simp only [List.length_cons] at ends
    omega

/-- A loop that does not wrap around, or that finds a difference before it could. -/
private theorem elemsEq_correct {i : ℕ} {leftContents rightContents : List Content} {equal : Bool}
    (correct : ∀ less < fuel, Correct store less) (leftDenotes : List.Forall₂ (Content.At store) leftContents lefts)
    (rightDenotes : List.Forall₂ (Content.At store) rightContents rights) (reads : Reads pair i lefts rights)
    (ends : stop = i + lefts.length) (fits : stop ≤ 2 ^ width)
    (straight : stop < 2 ^ width ∨ leftContents ≠ rightContents)
    (result : elemsEq store fuel width stop pair i = .ok equal) :
    equal = true ↔ leftContents = rightContents := by
  induction leftDenotes generalizing fuel i rights rightContents with
  | nil =>
    cases rights with
    | cons => exact reads.elim
    | nil =>
      cases rightDenotes
      cases fuel with
      | zero => cases result
      | succ fuel =>
        rw [show i = stop from ends.symm, elemsEq_done] at result
        exact iff_of_true (Except.ok.inj result).symm rfl
  | @cons c x leftContents lefts head tail ih =>
    cases rightDenotes with
    | nil => exact reads.elim
    | @cons d y rightContents rights head' tail' =>
      cases fuel with
      | zero => cases result
      | succ fuel =>
        have inside : i < stop := by
          rw [List.length_cons] at ends
          omega
        rw [elemsEq_step inside reads.1, Except.bind_eq_ok] at result
        obtain ⟨same, compared, rest⟩ := result
        have exact := correct fuel (Nat.lt_succ_self fuel) head head' compared
        cases same with
        | false =>
          obtain rfl := Except.ok.inj rest
          refine iff_of_false Bool.false_ne_true fun equal => ?_
          exact Bool.false_ne_true (exact.mpr (List.cons.inj equal).1)
        | true =>
          obtain rfl := exact.mp rfl
          have others : leftContents = rightContents ↔ c :: leftContents = c :: rightContents :=
            ⟨congrArg _, fun equal => (List.cons.inj equal).2⟩
          rw [if_pos rfl] at rest
          rw [← others]
          have straight' := straight.imp_right (mt others.mp)
          rw [elemsEq_next tail tail' reads.2 ends fits straight'] at rest
          refine ih (fun less lower => correct less (Nat.lt_succ_of_lt lower)) tail' reads.2 ?_ straight' rest
          rw [ends, List.length_cons]
          omega

/-- The elements of one content at a position of both sequences. -/
private theorem reads_same {i k : ℕ} (same : List.Forall₂ (Same store) lefts rights) (reads : Reads pair i lefts rights)
    (inside : k < lefts.length) : ∃ x y, Same store x y ∧ pair (i + k) = .ok (x, y) := by
  induction same generalizing i k with
  | nil => cases inside
  | cons head _ ih =>
    cases k with
    | zero => exact ⟨_, _, head, reads.1⟩
    | succ k =>
      rw [← Nat.add_assoc, Nat.add_right_comm]
      exact ih reads.2 (Nat.lt_of_succ_lt_succ inside)

/-- A loop over equal elements whose counter wraps around to the sizes never returns. -/
private theorem elemsEq_endless {word : Term} (correct : ∀ less < fuel, Correct store less)
    (same : List.Forall₂ (Same store) lefts rights) (reads : Reads pair 1 lefts rights)
    (first : pair 0 = .ok (word, word)) (full : 1 + lefts.length = 2 ^ width) {i : ℕ} (within : i ≤ lefts.length)
    (equal : Bool) : elemsEq store fuel width (1 + lefts.length) pair i ≠ .ok equal := by
  induction fuel generalizing i with
  | zero =>
    intro result
    cases result
  | succ fuel ih =>
    have below : ∀ less < fuel, Correct store less := fun less lower => correct less (Nat.lt_succ_of_lt lower)
    have again : (i + 1) % 2 ^ width ≤ lefts.length := by
      have := Nat.mod_lt (i + 1) (Nat.two_pow_pos width)
      omega
    obtain ⟨x, y, read, compared⟩ : ∃ x y, pair i = .ok (x, y) ∧
        ∀ result, termsEq store fuel x y = .ok result → result = true := by
      cases i with
      | zero => exact ⟨word, word, first, fun _ => termsEq_self⟩
      | succ k =>
        obtain ⟨x, y, ⟨content, left, right⟩, read⟩ := reads_same same reads within
        rw [Nat.add_comm] at read
        exact ⟨x, y, read, fun _ result => (correct fuel (Nat.lt_succ_self fuel) left right result).mpr rfl⟩
    rw [elemsEq_step (by omega) read]
    intro result
    obtain ⟨answer, here, rest⟩ := Except.bind_eq_ok.mp result
    obtain rfl := compared answer here
    exact ih below again rest

end Loops

/-- Equal contents element by element. -/
private theorem same_of_contents {store : Store} {contents : List Content} {lefts rights : List Term}
    (left : List.Forall₂ (Content.At store) contents lefts) (right : List.Forall₂ (Content.At store) contents rights) :
    List.Forall₂ (Same store) lefts rights := by
  induction left generalizing rights with
  | nil =>
    cases right
    exact .nil
  | cons head _ ih =>
    cases right with
    | cons head' tail' => exact .cons ⟨_, head, head'⟩ (ih tail')

private theorem denotes_member {store : Store} {contents : List Content} {terms : List Term} {term : Term}
    (denotes : List.Forall₂ (Content.At store) contents terms) (member : term ∈ terms) :
    ∃ content ∈ contents, Content.At store content term := by
  induction denotes with
  | nil => exact absurd member List.not_mem_nil
  | cons head _ ih =>
    obtain rfl | later := List.mem_cons.mp member
    · exact ⟨_, List.mem_cons_self, head⟩
    · obtain ⟨content, listed, inner⟩ := ih later
      exact ⟨content, List.mem_cons_of_mem _ listed, inner⟩

section Fuel

variable {store : Store}

/-- More fuel does not change a result. -/
private theorem fuel_succ (store : Store) (fuel : ℕ) : (∀ {left right equal}, termsEq store fuel left right = .ok equal →
      termsEq store (fuel + 1) left right = .ok equal) ∧
    ∀ {width stop pair i equal}, elemsEq store fuel width stop pair i = .ok equal →
      elemsEq store (fuel + 1) width stop pair i = .ok equal := by
  induction fuel with
  | zero =>
    constructor
    · intro left right equal result
      cases result
    · intro width stop pair i equal result
      cases result
  | succ fuel ih =>
    constructor
    · intro left right equal result
      rw [termsEq] at result ⊢
      split at result
      · next same => rwa [if_pos same]
      rename_i different
      rw [if_neg different]
      split at result
      · next tags => rwa [if_pos tags]
      rename_i tags
      rw [if_neg tags]
      split at result
      · next int => rwa [if_pos int]
      rename_i notInt
      rw [if_neg notInt]
      split at result
      · next tuple =>
        simp only [if_pos tuple, Except.bind_eq_ok] at result ⊢
        obtain ⟨leftAry, leftRead, rightAry, rightRead, leftSize, leftWord, rightSize, rightWord, rest⟩ := result
        refine ⟨leftAry, leftRead, rightAry, rightRead, leftSize, leftWord, rightSize, rightWord, ?_⟩
        split at rest
        · next sizes => rwa [if_pos sizes]
        · next sizes => rw [if_neg sizes, ih.2 rest]
      rename_i notTuple
      rw [if_neg notTuple]
      split at result
      · next list =>
        simp only [if_pos list, Except.bind_eq_ok] at result ⊢
        obtain ⟨leftList, leftRead, rightList, rightRead, rest⟩ := result
        refine ⟨leftList, leftRead, rightList, rightRead, ?_⟩
        split at rest
        · next counts => rwa [if_pos counts]
        · next counts => rw [if_neg counts, ih.2 rest]
      · next notList => rwa [if_neg notList]
    · intro width stop pair i equal result
      rw [elemsEq] at result ⊢
      split at result
      · next inside =>
        simp only [if_pos inside, Except.bind_eq_ok] at result ⊢
        obtain ⟨⟨x, y⟩, read, answer, compared, rest⟩ := result
        refine ⟨(x, y), read, answer, ih.1 compared, ?_⟩
        split at rest
        · next same => rw [if_pos same, ih.2 rest]
        · next other => rwa [if_neg other]
      · next outside => rwa [if_neg outside]

private theorem termsEq_le {fuel fuel' : ℕ} {left right : Term} {equal : Bool} (le : fuel ≤ fuel')
    (result : termsEq store fuel left right = .ok equal) : termsEq store fuel' left right = .ok equal := by
  induction le with
  | refl => exact result
  | step _ ih => exact (fuel_succ store _).1 ih

private theorem elemsEq_le {fuel fuel' width stop i : ℕ} {pair : ℕ → Except Halt (Term × Term)} {equal : Bool}
    (le : fuel ≤ fuel') (result : elemsEq store fuel width stop pair i = .ok equal) :
    elemsEq store fuel' width stop pair i = .ok equal := by
  induction le with
  | refl => exact result
  | step _ ih => exact (fuel_succ store _).2 ih

end Fuel

section Main

variable {store : Store} (null : store 0 = none)
include null

theorem termsEq_correct (fuel : ℕ) : Correct store fuel := by
  induction fuel using Nat.strong_induction_on with
  | _ fuel correct =>
    intro left right leftContent rightContent equal leftDenotes rightDenotes result
    cases fuel with
    | zero => cases result
    | succ fuel =>
      obtain ⟨answer, exact, runs⟩ | ⟨overlaps, tag, different⟩ |
        @⟨lefts, rights, different, tag, leftParts, rightParts, length⟩ := comparison null leftDenotes rightDenotes
      · rw [runs fuel] at result
        exact Except.ok.inj result ▸ exact
      · exact absurd result (constant_stuck null leftDenotes rightDenotes overlaps tag different _ equal)
      · obtain ⟨⟨width, start, pair, loop⟩, leftContents, rightContents, leftInner, rightInner, exact, -⟩ :=
          walk null leftDenotes rightDenotes different tag leftParts rightParts length
        have below : ∀ less < fuel, Correct store less := fun less lower => correct less (Nat.lt_succ_of_lt lower)
        rw [loop.runs fuel] at result
        rw [← exact]
        by_cases straight : start + lefts.length < 2 ^ width ∨ leftContents ≠ rightContents
        · exact elemsEq_correct below leftInner rightInner loop.reads rfl loop.fits straight result
        · obtain ⟨notBelow, same⟩ := not_or.mp straight
          have full := le_antisymm loop.fits (Nat.le_of_not_lt notBelow)
          obtain ⟨rfl, ⟨word, first⟩, -, long⟩ := loop.wraps full
          obtain rfl := not_not.mp same
          exact absurd result (elemsEq_endless below (same_of_contents leftInner rightInner) loop.reads first full
            (by omega) equal)

private theorem clash_stuck {left right : Term} {leftContent rightContent : Content}
    (leftDenotes : leftContent.At store left) (rightDenotes : rightContent.At store right)
    (clash : Clash store left right) (fuel : ℕ) (equal : Bool) : termsEq store fuel left right ≠ .ok equal := by
  cases clash with
  | constantLeft overlaps tag object =>
    exact constant_stuck null leftDenotes rightDenotes (.inl overlaps) tag object fuel equal
  | constantRight overlaps tag object =>
    exact constant_stuck null leftDenotes rightDenotes (.inr overlaps) tag object fuel equal
  | wide different leftTag rightTag leftParts rightParts length same =>
    obtain ⟨⟨width, start, pair, loop⟩, -⟩ :=
      walk null leftDenotes rightDenotes different (leftTag.trans rightTag.symm) leftParts rightParts same.length_eq
    cases fuel with
    | zero =>
      intro result
      cases result
    | succ fuel =>
      have full := loop.full leftTag length
      obtain ⟨rfl, ⟨word, first⟩, -⟩ := loop.wraps full
      rw [loop.runs]
      exact elemsEq_endless (fun less _ => termsEq_correct null less) same loop.reads first full (by omega) equal

/-- A loop that returns has compared every pair of elements up to the first difference. -/
private theorem elemsEq_returns {pair : ℕ → Except Halt (Term × Term)} {fuel width i : ℕ} {x y : Term}
    {before before' after after' : List Term} {equal : Bool} (earlier : List.Forall₂ (Same store) before before')
    (reads : Reads pair i (before ++ x :: after) (before' ++ y :: after'))
    (fits : i + (before ++ x :: after).length ≤ 2 ^ width)
    (result : elemsEq store fuel width (i + (before ++ x :: after).length) pair i = .ok equal) :
    ∃ fuel' answer, termsEq store fuel' x y = .ok answer := by
  induction earlier generalizing fuel i with
  | nil =>
    cases fuel with
    | zero => cases result
    | succ fuel =>
      rw [List.nil_append, List.length_cons] at result
      rw [elemsEq_step (by omega) reads.1] at result
      obtain ⟨answer, compared, -⟩ := Except.bind_eq_ok.mp result
      exact ⟨fuel, answer, compared⟩
  | @cons z z' before before' head tail ih =>
    cases fuel with
    | zero => cases result
    | succ fuel =>
      have longer : i + (z :: before ++ x :: after).length = i + 1 + (before ++ x :: after).length := by
        rw [List.cons_append, List.length_cons]
        omega
      have more : 0 < (before ++ x :: after).length := by
        rw [List.length_append, List.length_cons]
        omega
      rw [longer] at fits result
      rw [elemsEq_step (by omega) reads.1] at result
      obtain ⟨answer, compared, rest⟩ := Except.bind_eq_ok.mp result
      obtain ⟨content, here, there⟩ := head
      obtain rfl := (termsEq_correct null fuel here there compared).mpr rfl
      rw [if_pos rfl, Nat.mod_eq_of_lt (by omega)] at rest
      exact ih reads.2 fits rest

/-- A comparison that returns has compared all pairs that it reaches. -/
theorem Reaches.returns {left right left' right' : Term} (reached : Reaches store left right left' right') :
    ∀ {fuel leftContent rightContent equal}, Content.At store leftContent left →
      Content.At store rightContent right → termsEq store fuel left right = .ok equal →
      ∃ fuel' leftContent' rightContent' equal', Content.At store leftContent' left' ∧
        Content.At store rightContent' right' ∧ termsEq store fuel' left' right' = .ok equal' := by
  induction reached with
  | refl left right =>
    intro fuel leftContent rightContent equal leftDenotes rightDenotes result
    exact ⟨fuel, leftContent, rightContent, equal, leftDenotes, rightDenotes, result⟩
  | part different tag leftParts rightParts length earlier rest ih =>
    intro fuel leftContent rightContent equal leftDenotes rightDenotes result
    have lengths := earlier.length_eq
    obtain ⟨⟨width, start, pair, loop⟩, leftContents, rightContents, leftInner, rightInner, -⟩ :=
      walk null leftDenotes rightDenotes different tag leftParts rightParts (by simp [lengths, length])
    cases fuel with
    | zero => cases result
    | succ fuel =>
      rw [loop.runs fuel] at result
      obtain ⟨fuel', answer, compared⟩ := elemsEq_returns null earlier loop.reads loop.fits result
      obtain ⟨c, -, here⟩ := denotes_member leftInner (List.mem_append_right _ List.mem_cons_self)
      obtain ⟨d, -, there⟩ := denotes_member rightInner (List.mem_append_right _ List.mem_cons_self)
      exact ih here there compared

/-- A loop over pairs whose comparisons return, that does not wrap around over equal elements. -/
private theorem elemsEq_total {pair : ℕ → Except Halt (Term × Term)} {width stop i : ℕ} {lefts rights : List Term}
    {leftContents rightContents : List Content}
    (total : ∀ content ∈ leftContents, ∀ {x y content'}, content.At store x → Content.At store content' y →
      Clear store x y → ∃ fuel equal, termsEq store fuel x y = .ok equal)
    (leftDenotes : List.Forall₂ (Content.At store) leftContents lefts)
    (rightDenotes : List.Forall₂ (Content.At store) rightContents rights) (reads : Reads pair i lefts rights)
    (ends : stop = i + lefts.length) (fits : stop ≤ 2 ^ width)
    (straight : stop < 2 ^ width ∨ leftContents ≠ rightContents)
    (clear : ∀ before x after before' y after', lefts = before ++ x :: after → rights = before' ++ y :: after' →
      List.Forall₂ (Same store) before before' → Clear store x y) :
    ∃ fuel equal, elemsEq store fuel width stop pair i = .ok equal := by
  induction leftDenotes generalizing i rights rightContents with
  | nil =>
    obtain rfl : stop = i := ends
    exact ⟨1, true, elemsEq_done 0 width stop pair⟩
  | @cons c x leftContents lefts head tail ih =>
    cases rightDenotes with
    | nil => exact reads.elim
    | @cons d y rightContents rights head' tail' =>
      have inside : i < stop := by
        rw [List.length_cons] at ends
        omega
      obtain ⟨fuel, answer, compared⟩ :=
        total c List.mem_cons_self head head' (clear [] x lefts [] y rights rfl rfl .nil)
      cases answer with
      | false =>
        refine ⟨fuel + 1, false, ?_⟩
        rw [elemsEq_step inside reads.1, compared]
        rfl
      | true =>
        obtain rfl := (termsEq_correct null fuel head head' compared).mp rfl
        have straight' : stop < 2 ^ width ∨ leftContents ≠ rightContents :=
          straight.imp_right (mt (congrArg _))
        have next := elemsEq_next tail tail' reads.2 ends fits straight'
        obtain ⟨fuel', equal, rest⟩ := ih
          (fun content member => total content (List.mem_cons_of_mem c member)) tail' reads.2
          (by rw [ends, List.length_cons]; omega) straight'
          fun before x' after before' y' after' left right earlier =>
            clear (x :: before) x' after (y :: before') y' after' (congrArg _ left) (congrArg _ right)
              (.cons ⟨c, head, head'⟩ earlier)
        refine ⟨max fuel fuel' + 1, equal, ?_⟩
        rw [elemsEq_step inside reads.1, termsEq_le (le_max_left _ _) compared, Except.ok_bind, if_pos rfl, next]
        exact elemsEq_le (le_max_right _ _) rest

/-- A comparison that meets no clash returns. -/
private theorem termsEq_total (leftContent : Content) : ∀ {left right rightContent}, leftContent.At store left →
    Content.At store rightContent right → Clear store left right →
    ∃ fuel equal, termsEq store fuel left right = .ok equal := by
  induction leftContent using Content.innerInduction with
  | step leftContent total =>
    intro left right rightContent leftDenotes rightDenotes clear
    obtain ⟨answer, exact, runs⟩ | ⟨overlaps, tag, different⟩ |
      @⟨lefts, rights, different, tag, leftParts, rightParts, length⟩ := comparison null leftDenotes rightDenotes
    · exact ⟨1, answer, runs 0⟩
    · have here := clear left right (.refl left right)
      obtain overlaps | overlaps := overlaps
      · exact absurd (.constantLeft overlaps tag different) here
      · exact absurd (.constantRight overlaps tag different) here
    · obtain ⟨⟨width, start, pair, loop⟩, leftContents, rightContents, leftInner, rightInner, -, inner⟩ :=
        walk null leftDenotes rightDenotes different tag leftParts rightParts length
      have straight : start + lefts.length < 2 ^ width ∨ leftContents ≠ rightContents := by
        by_contra bent
        obtain ⟨notBelow, same⟩ := not_or.mp bent
        obtain ⟨-, -, tuple, long⟩ := loop.wraps (le_antisymm loop.fits (Nat.le_of_not_lt notBelow))
        obtain rfl := not_not.mp same
        exact clear left right (.refl left right) (.wide different tuple (tag.symm.trans tuple) leftParts rightParts
          long (same_of_contents leftInner rightInner))
      obtain ⟨fuel, equal, result⟩ := elemsEq_total null (inner ▸ total) leftInner rightInner loop.reads rfl
        loop.fits straight fun before x after before' y after' left' right' earlier x' y' reached => by
          subst left' right'
          refine clear x' y' (.part different tag leftParts rightParts ?_ earlier reached)
          have lengths := earlier.length_eq
          simp only [List.length_append, List.length_cons] at length
          omega
      exact ⟨fuel + 1, equal, (loop.runs fuel).trans result⟩

/-- The comparison of two well-formed terms returns whether they denote the same content if and only if it meets
no constant beside an object of its tag and no two distinct tuples of 255 equal elements. -/
theorem termsEq_iff {left right : Term} {leftContent rightContent : Content}
    (leftDenotes : leftContent.At store left) (rightDenotes : rightContent.At store right) :
    Decides store left right leftContent rightContent ↔ Clear store left right := by
  constructor
  · rintro ⟨fuel, equal, result, -⟩ left' right' reached clash
    obtain ⟨fuel', _, _, equal', here, there, compared⟩ := reached.returns null leftDenotes rightDenotes result
    exact clash_stuck null here there clash fuel' equal' compared
  · intro clear
    obtain ⟨fuel, equal, result⟩ := termsEq_total null leftContent leftDenotes rightDenotes clear
    exact ⟨fuel, equal, result, termsEq_correct null fuel leftDenotes rightDenotes result⟩

end Main

/-- Two tuples `(1, "a")` that share the interned text, at the addresses one and two. -/
def pairStore : Store
  | 1 => some (.tuple [2, intFrom 1, tagAs 3 .string])
  | 2 => some (.tuple [2, intFrom 1, tagAs 3 .string])
  | 3 => some (.string (bytes "a"))
  | _ => none

private theorem pair_at {address : UInt64} (tuple : tagOf (tagAs address .tuple) = Tag.tuple.bits)
    (found : pairStore (extractPtr (tagAs address .tuple)) = some (.tuple [2, intFrom 1, tagAs 3 .string])) :
    Content.At pairStore (.tuple [.int 1, .string (bytes "a")]) (tagAs address .tuple) :=
  ⟨tuple, [intFrom 1, tagAs 3 .string], found, by decide, ⟨rfl, rfl⟩, ⟨rfl, rfl⟩, trivial⟩

theorem termsEq_clear_pairs : Clear pairStore (tagAs 1 .tuple) (tagAs 2 .tuple) :=
  (termsEq_iff rfl (pair_at rfl rfl) (pair_at rfl rfl)).mp ⟨5, true, by decide, iff_of_true rfl rfl⟩

/-- `true == "a"` compares the text with what stands at address zero. -/
theorem termsEq_fails : ¬ ∀ (store : Store) left right leftContent rightContent, store 0 = none →
    Content.At store leftContent left → Content.At store rightContent right →
    Decides store left right leftContent rightContent := by
  intro decides
  obtain ⟨fuel, equal, result, -⟩ := decides pairStore OWL_TRUE (tagAs 3 .string) .true (.string (bytes "a")) rfl rfl
    ⟨rfl, rfl⟩
  have text : Content.At pairStore (.string (bytes "a")) (tagAs 3 .string) := ⟨rfl, rfl⟩
  have constant : Content.At pairStore .true OWL_TRUE := rfl
  exact constant_stuck rfl constant text (.inl (.inl rfl)) rfl (by decide) fuel equal result

end Owl.Runtime
