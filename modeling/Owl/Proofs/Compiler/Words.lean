import Owl.Proofs.Compiler.Reader

/-! # Reading words

A word is a value, a variable, or the start of a form, a call, a capture or an operation. Which of these it is
depends on what follows it.
-/

namespace Owl.Grammar

open Owl.Compiler Parser

variable [Ascii] {name rest : Bytes}

section Words

variable {expr : Parser UInt8 Expr} {word middle : Bytes} {l : Expr}

omit [Ascii] in
/-- A word that is read where a longer one may stand leaves the end of it. -/
theorem word_run {text : Bytes} (isWord : ∀ c ∈ word, isIdentifierByte c)
    (stops : ∀ c ∈ rest.head?, isIdentifierByte c = false)
    (run : Parser.string word (name ++ rest) = some (text, middle)) :
    ∃ more, name = word ++ more ∧ middle = more ++ rest := by
  rw [Parser.string] at run
  split at run
  next found =>
    obtain ⟨more, rfl⟩ := prefix_of_prefix_append isWord stops (List.isPrefixOf_iff_prefix.mp found)
    cases run
    exact ⟨more, rfl, by rw [List.append_assoc, List.drop_left]⟩
  next => cases run

/-- What a value leaves of a word. -/
def ValueLeaves (name : Bytes) (value : Expr) (more : Bytes) : Prop :=
  value = .nil ∧ name = bytes "nil" ++ more ∨ value = .true ∧ name = bytes "true" ++ more ∨
    value = .false ∧ name = bytes "false" ++ more

theorem values_run (stops : ∀ c ∈ rest.head?, isIdentifierByte c = false)
    (run : Chomp.or nil bool (name ++ rest) = some (l, middle)) :
    ∃ more, ValueLeaves name l more ∧ middle = more ++ rest := by
  obtain run | ⟨-, run⟩ := or_eq_some run
  · obtain ⟨text, after, found, done⟩ := bind_eq_some run
    obtain ⟨more, same, rfl⟩ := word_run (List.all_eq_true.mp (by decide)) stops found
    cases done
    exact ⟨more, .inl ⟨rfl, same⟩, rfl⟩
  obtain run | ⟨-, run⟩ := or_eq_some run
  · obtain ⟨text, after, found, done⟩ := bind_eq_some run
    obtain ⟨more, same, rfl⟩ := word_run (List.all_eq_true.mp (by decide)) stops found
    cases done
    exact ⟨more, .inr (.inl ⟨rfl, same⟩), rfl⟩
  · obtain ⟨text, after, found, done⟩ := bind_eq_some run
    obtain ⟨more, same, rfl⟩ := word_run (List.all_eq_true.mp (by decide)) stops found
    cases done
    exact ⟨more, .inr (.inr ⟨rfl, same⟩), rfl⟩

theorem values_none (plain : StartsNoValue name) (stops : ∀ c ∈ rest.head?, isIdentifierByte c = false) :
    Chomp.or nil bool (name ++ rest) = none := by
  cases run : Chomp.or nil bool (name ++ rest) with
  | none => rfl
  | some done =>
    obtain ⟨more, ⟨-, rfl⟩ | ⟨-, rfl⟩ | ⟨-, rfl⟩, -⟩ := values_run stops run
    · exact absurd (List.prefix_append _ more) (plain (bytes "nil") (by decide))
    · exact absurd (List.prefix_append _ more) (plain (bytes "true") (by decide))
    · exact absurd (List.prefix_append _ more) (plain (bytes "false") (by decide))

omit [Ascii] in
theorem ValueLeaves.more_word {more : Bytes} (leaves : ValueLeaves name l more) (isName : IsIdentifier name) :
    ∀ c ∈ more, isIdentifierByte c := by
  intro c member
  obtain ⟨-, rfl⟩ | ⟨-, rfl⟩ | ⟨-, rfl⟩ := leaves <;> exact isName.2 c (List.mem_append_right _ member)

theorem operand_word (isName : IsIdentifier name) (rest : Bytes) :
    operand expr (name ++ rest) = Chomp.or (Chomp.or nil bool) (Chomp.or (apply expr) ident) (name ++ rest) := by
  rw [or_nested]
  obtain ⟨⟨first, head, lower⟩, -⟩ := isName
  obtain ⟨tail, rfl⟩ := List.head?_eq_some_iff.mp head
  exact operand_lower lower _

/-- A word is no form of its own where white space and something else follow. -/
theorem keywords_none (isName : IsIdentifier name) (stops : ∀ c ∈ rest.head?, isIdentifierByte c = false)
    (noForm : ∀ c tail, rest = c :: tail → Chomp.isWhitespace c → expr tail = none ∧ identifier tail = none) :
    ifExpr expr (name ++ rest) = none ∧ letExpr expr (name ++ rest) = none := by
  have spaced {α : Type} (next : Parser UInt8 α) (fails : ∀ c tail, rest = c :: tail → Chomp.isWhitespace c →
    next tail = none) :
      (Chomp.satisfy Chomp.isWhitespace >>= fun _ => next) rest = none := by
    cases rest with
    | nil => rfl
    | cons c tail =>
      cases blank : Chomp.isWhitespace c with
      | false => exact bind_none (satisfy_cons_none blank)
      | true =>
        have run : Chomp.satisfy Chomp.isWhitespace (c :: tail) = some (c, tail) := if_pos blank
        exact (bind_some run).trans (fails c tail rfl blank)
  constructor
  · by_cases same : name = bytes "if"
    · subst same
      rw [ifExpr, bind_some (string_append _ rest)]
      exact spaced _ fun c tail split blank => bind_none (noForm c tail split blank).1
    · exact keyword_none (List.all_eq_true.mp (by decide)) isName same stops
  · by_cases same : name = bytes "let"
    · subst same
      rw [letExpr, bind_some (string_append _ rest)]
      exact spaced _ fun c tail split blank => bind_none (noForm c tail split blank).2
    · exact keyword_none (List.all_eq_true.mp (by decide)) isName same stops

theorem infixExpr_none (stays : ∀ l middle, operand expr name = some (l, middle) →
    infixOp (middle.dropWhile Chomp.isWhitespace) = none) : infixExpr expr name = none := by
  cases run : operand expr name with
  | none => exact bind_none run
  | some done =>
    rw [infixExpr, bind_some run, bind_some (skipWhitespace_eq done.2)]
    exact bind_none (stays done.1 done.2 run)

/-- No operator follows what a value leaves of a word. -/
theorem noOperator_more {more : Bytes} (all : ∀ c ∈ more, isIdentifierByte c)
    (noOperator : infixOp (rest.dropWhile Chomp.isWhitespace) = none) :
    infixOp ((more ++ rest).dropWhile Chomp.isWhitespace) = none := by
  cases more with
  | nil => exact noOperator
  | cons c more =>
    have word := all c List.mem_cons_self
    rw [List.cons_append, dropWhile_visible (identifierByte_visible word)]
    apply infixOp_starts.cons
    intro start
    rw [(operatorStart_ends start).2.1] at word
    exact Bool.noConfusion word

/-- A word is no operand where neither arguments nor an operator follow. -/
theorem infixExpr_word_none (isName : IsIdentifier name) (stops : ∀ c ∈ rest.head?, isIdentifierByte c = false ∧ c ≠ 40)
    (noOperator : infixOp (rest.dropWhile Chomp.isWhitespace) = none) : infixExpr expr (name ++ rest) = none := by
  apply infixExpr_none
  intro l middle run
  rw [operand_word isName] at run
  obtain run | ⟨-, run⟩ := or_eq_some run
  · obtain ⟨more, leaves, rfl⟩ := values_run (fun c head => (stops c head).1) run
    exact noOperator_more (leaves.more_word isName) noOperator
  obtain run | ⟨-, run⟩ := or_eq_some run
  · rw [apply_none isName stops] at run
    cases run
  · have read : ident (name ++ rest) = some (.ident name, rest) :=
      bind_some (identifier_run isName fun c head => (stops c head).1)
    rw [read] at run
    cases run
    exact noOperator

private theorem Ends.noForms (ends : Ends rest) (c : UInt8) (tail : Bytes) (split : rest = c :: tail)
    (blank : Chomp.isWhitespace c) : reader tail = none ∧ identifier tail = none := by
  have other := ends.noForm c tail split blank
  exact ⟨reader_starts tail other, identOf_starts _ tail fun d head lower =>
    other d head (.inl (.inr (.inr (.inr (.inr lower)))))⟩

/-- A word at the end of an expression is a value or a variable. -/
theorem reader_word (isName : IsIdentifier name) (ends : Ends rest) :
    reader (name ++ rest) = Chomp.or (Chomp.or nil bool) (Chomp.or ident int) (name ++ rest) := by
  obtain ⟨notIf, notLet⟩ := keywords_none isName (fun c head => (ends.word c head).1) ends.noForms
  have notInfix := @infixExpr_word_none _ _ rest reader isName
    (fun c head => ⟨(ends.word c head).1, (ends.word c head).2.1⟩) ends.noOperator
  have notApply := @apply_none _ reader _ rest isName
    fun c head => ⟨(ends.word c head).1, (ends.word c head).2.1⟩
  have notCapture := @capture_none _ _ rest isName fun c head => ⟨(ends.word c head).1, (ends.word c head).2.2⟩
  rw [reader_eq, or_nested]
  obtain ⟨⟨first, head, lower⟩, -⟩ := isName
  obtain ⟨tail, rfl⟩ := List.head?_eq_some_iff.mp head
  exact alternatives_lower lower notIf notLet notInfix notApply notCapture

end Words

end Owl.Grammar
