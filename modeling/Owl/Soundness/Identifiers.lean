import Owl.Proofs.Compiler.Grammar

/-! # Reading identifiers

The words `true`, `false` and `nil` are read wherever they start the input, so an identifier that starts
with one of them is cut behind it. Every other identifier is read whole.
-/

namespace Owl.Grammar

open Owl.Compiler Parser

/-- The words that the grammar reads without looking at what follows. -/
def literalWords : List Bytes := [bytes "true", bytes "false", bytes "nil"]

def reservedWords : List Bytes := literalWords ++ [bytes "if", bytes "let"]

/-- A name is read as the identifier of that name, alone and on the left of every operator. -/
def ReadsWhole [Chomp] (name : Name) : Prop :=
  parseExpr name = some (.ident name) ∧
  ∀ op ∈ operators, ∀ before after, Blank before → Blank after →
    ∀ right rhs, parseExpr right = some rhs →
      parseExpr (name ++ before ++ op ++ after ++ right) = some (.apply none op [.ident name, rhs])

private theorem literalWord_bytes : ∀ word ∈ literalWords, ∀ c ∈ word, isIdentifierByte c := by
  have found : (literalWords.all fun word => word.all isIdentifierByte) = true := by decide
  intro word member c inside
  exact List.all_eq_true.mp (List.all_eq_true.mp found word member) c inside

section Reading

variable [Ascii] {expr : Parser UInt8 Expr} {name word rest more : Bytes}

section Whole

variable (unlucky : ∀ word ∈ literalWords, ¬ word <+: name)

include unlucky

private theorem literals_none (stops : ∀ c ∈ rest.head?, isIdentifierByte c = false) :
    nil (name ++ rest) = none ∧ bool (name ++ rest) = none := by
  have absent : ∀ word ∈ literalWords, ¬ word <+: name ++ rest := fun word member found =>
    unlucky word member (prefix_of_prefix_append (literalWord_bytes word member) stops found)
  have notTrue : boolTrue (name ++ rest) = none := bind_none (string_none (absent _ (by decide)))
  have notFalse : boolFalse (name ++ rest) = none := bind_none (string_none (absent _ (by decide)))
  exact ⟨bind_none (string_none (absent _ (by decide))), (or_none notTrue).trans notFalse⟩

variable (isName : IsIdentifier name)

include isName

private theorem operand_ident (stops : ∀ c ∈ rest.head?, isIdentifierByte c = false ∧ c ≠ 40) :
    operand expr (name ++ rest) = some (.ident name, rest) := by
  have ends : ∀ c ∈ rest.head?, isIdentifierByte c = false := fun c head => (stops c head).1
  obtain ⟨notNil, notBool⟩ := literals_none unlucky ends
  have notApply := @apply_none _ expr _ _ isName stops
  have reads : ident (name ++ rest) = some (.ident name, rest) := bind_some (identifier_run isName ends)
  obtain ⟨⟨first, head, lower⟩, -⟩ := isName
  obtain ⟨tail, rfl⟩ := List.head?_eq_some_iff.mp head
  calc operand expr (first :: tail ++ rest)
    _ = _ := operand_lower lower _
    _ = _ := (or_none notNil).trans <| (or_none notBool).trans <| or_none notApply
    _ = _ := reads

variable (free : name ∉ reservedWords)

include free

omit unlucky in
theorem forms_none (stops : ∀ c ∈ rest.head?, isIdentifierByte c = false) :
    ifExpr expr (name ++ rest) = none ∧ letExpr expr (name ++ rest) = none := by
  constructor
  · apply keyword_none (List.all_eq_true.mp (by decide)) isName _ stops
    rintro rfl
    exact free (by decide)
  · apply keyword_none (List.all_eq_true.mp (by decide)) isName _ stops
    rintro rfl
    exact free (by decide)

private theorem alternatives_ident : alternatives expr name = some (.ident name, []) := by
  have ends : ∀ c ∈ ([] : Bytes).head?, isIdentifierByte c = false := fun _ impossible => nomatch impossible
  have reads : ident (name ++ []) = some (.ident name, []) := bind_some (identifier_run isName ends)
  obtain ⟨notIf, notLet⟩ := @forms_none _ expr _ _ isName free ends
  obtain ⟨notNil, notBool⟩ := literals_none unlucky ends
  have operandReads := @operand_ident _ expr name [] unlucky isName (fun _ impossible => nomatch impossible)
  have notApply := @apply_none _ expr name [] isName (fun _ impossible => nomatch impossible)
  have notCapture := @capture_none _ name [] isName (fun _ impossible => nomatch impossible)
  have notInfix : infixExpr expr (name ++ []) = none := by
    have stays : skipWhitespace [] = some (⟨⟩, []) := rfl
    rw [infixExpr, bind_some operandReads, bind_some stays]
    exact bind_none infixOp_starts.nil
  rw [List.append_nil] at *
  obtain ⟨⟨first, head, lower⟩, -⟩ := isName
  obtain ⟨tail, rfl⟩ := List.head?_eq_some_iff.mp head
  calc alternatives expr (first :: tail)
    _ = _ := alternatives_lower lower notIf notLet notInfix notApply notCapture
    _ = _ := (or_none notNil).trans <| or_none notBool
    _ = _ := or_some reads

private theorem parseExpr_infix {op before after right : Bytes} {rhs : Expr} (member : op ∈ operators)
    (blankBefore : Blank before) (blankAfter : Blank after) (reads : parseExpr right = some rhs) :
    parseExpr (name ++ before ++ op ++ after ++ right) = some (.apply none op [.ident name, rhs]) := by
  obtain ⟨⟨value, rest⟩, run, same⟩ := Option.map_eq_some_iff.mp reads
  obtain rfl : value = rhs := same
  have whole : name ++ before ++ op ++ after ++ right = name ++ (before ++ op ++ (after ++ right)) := by simp
  have ends := @behind_operator _ (after ++ right) before op blankBefore member
  set input := name ++ before ++ op ++ after ++ right
  have enough : right.length < input.length := by
    have some' : 0 < name.length := by
      obtain ⟨⟨first, head, -⟩, -⟩ := isName
      exact List.length_pos_of_mem (List.mem_of_mem_head? head)
    rw [whole]
    simp only [List.length_append]
    omega
  have rightReads : expr input.length right = some (value, rest) := (expr_enough enough).trans run
  obtain ⟨notIf, notLet⟩ := @forms_none _ (expr input.length) name _ isName free
    fun c head => (ends c head).1
  have operandReads := @operand_ident _ (expr input.length) name _ unlucky isName fun c head =>
    ⟨(ends c head).1, (ends c head).2.1⟩
  have infixReads := infixExpr_run operandReads blankBefore member blankAfter (expr_starts _) rightReads
  rw [← whole] at *
  have reads : alternatives (expr input.length) input = _ :=
    (or_none notIf).trans <| (or_none notLet).trans <| or_some infixReads
  exact congrArg (Option.map Prod.fst) reads

end Whole

theorem parseExpr_cut {c : UInt8} {value : Expr} (lower : isLowercase c) (isName : IsIdentifier (c :: word ++ more))
    (free : c :: word ++ more ∉ reservedWords) (longer : more ≠ [])
    (operandReads : ∀ expr, operand expr (c :: word ++ more) = some (value, more))
    (reads : (Chomp.or nil <| Chomp.or bool <| Chomp.or ident int) (c :: word ++ more) = some (value, more)) :
    parseExpr (c :: word ++ more) = some value := by
  set name := c :: word ++ more with spelled
  obtain ⟨d, more, rfl⟩ := List.exists_cons_of_ne_nil longer
  have inside : isIdentifierByte d := isName.2 d (by simp [spelled])
  have ends : ∀ c ∈ ([] : Bytes).head?, isIdentifierByte c = false := fun _ impossible => nomatch impossible
  obtain ⟨notIf, notLet⟩ := @forms_none _ (expr name.length) name [] isName free ends
  have notApply := @apply_none _ (expr name.length) name [] isName (fun _ impossible => nomatch impossible)
  have notCapture := @capture_none _ name [] isName (fun _ impossible => nomatch impossible)
  have notInfix : infixExpr (expr name.length) name = none := by
    have stays : skipWhitespace (d :: more) = some (⟨⟩, d :: more) := by
      apply skipWhitespace_none
      rintro e ⟨rfl⟩
      exact Ascii.space_lt (identifierByte_visible inside)
    have notOp : ¬ OperatorStart d := fun start =>
      absurd inside (Bool.eq_false_iff.mp (operatorStart_ends start).2.1)
    rw [infixExpr, bind_some (operandReads _), bind_some stays]
    exact bind_none (infixOp_starts.cons notOp more)
  rw [List.append_nil] at *
  have run := (alternatives_lower lower notIf notLet notInfix notApply notCapture).trans reads
  exact congrArg (Option.map Prod.fst) run

end Reading

/-- An identifier is read whole exactly when none of the words `true`, `false` and `nil` starts it. -/
theorem readsWhole_iff [chomp : Chomp] {name : Name} (isName : IsIdentifier name) (free : name ∉ reservedWords) :
    ReadsWhole name ↔ ∀ word ∈ literalWords, ¬ word <+: name := by
  obtain ⟨ascii, rfl⟩ := chomp.exists_ascii
  constructor
  · rintro ⟨alone, -⟩ word member ⟨more, rfl⟩
    have longer : more ≠ [] := by
      rintro rfl
      rw [List.append_nil] at free
      exact free (List.mem_append_left _ member)
    simp only [literalWords, List.mem_cons, List.not_mem_nil, or_false] at member
    rcases member with rfl | rfl | rfl
    · have word : ∀ rest, boolTrue (bytes "true" ++ rest) = some (.true, rest) := fun rest =>
        bind_some (string_append _ rest)
      have notNil : nil (bytes "true" ++ more) = none := nil_starts.cons (by decide) _
      have reads : parseExpr (bytes "true" ++ more) = some .true :=
        parseExpr_cut (by decide) isName free longer
          (fun expr => (operand_lower (by decide) _).trans <| (or_none notNil).trans <| or_some <| or_some <| word more)
          ((or_none notNil).trans <| or_some <| or_some <| word more)
      exact nomatch reads.symm.trans alone
    · have word : ∀ rest, boolFalse (bytes "false" ++ rest) = some (.false, rest) := fun rest =>
        bind_some (string_append _ rest)
      have notNil : nil (bytes "false" ++ more) = none := nil_starts.cons (by decide) _
      have notTrue : boolTrue (bytes "false" ++ more) = none := (Starts.string 116 _).bind.cons (by decide) _
      have isFalse : bool (bytes "false" ++ more) = some (.false, more) := (or_none notTrue).trans (word more)
      have reads : parseExpr (bytes "false" ++ more) = some .false :=
        parseExpr_cut (by decide) isName free longer
          (fun expr => (operand_lower (by decide) _).trans <| (or_none notNil).trans <| or_some isFalse)
          ((or_none notNil).trans <| or_some isFalse)
      exact nomatch reads.symm.trans alone
    · have word : ∀ rest, nil (bytes "nil" ++ rest) = some (.nil, rest) := fun rest =>
        bind_some (string_append _ rest)
      have reads : parseExpr (bytes "nil" ++ more) = some .nil :=
        parseExpr_cut (by decide) isName free longer
          (fun expr => (operand_lower (by decide) _).trans <| or_some <| word more) (or_some <| word more)
      exact nomatch reads.symm.trans alone
  · intro unlucky
    refine ⟨congrArg (Option.map Prod.fst) (alternatives_ident unlucky isName free), ?_⟩
    intro op member before after blankBefore blankAfter right rhs reads
    exact parseExpr_infix unlucky isName free member blankBefore blankAfter reads

theorem readsWhole_letter : @ReadsWhole .standard (bytes "letter") :=
  (@readsWhole_iff .standard _ ⟨⟨108, rfl, by decide⟩, List.all_eq_true.mp (by decide)⟩ (by decide)).mpr (by decide)

/-- `nilable` is read as `nil`. -/
theorem readsWhole_fails :
    IsIdentifier (bytes "nilable") ∧ bytes "nilable" ∉ reservedWords ∧
      @parseExpr .standard (bytes "nilable") = some .nil ∧ ¬ @ReadsWhole .standard (bytes "nilable") := by
  have reads : @parseExpr .standard (bytes "nilable") = some .nil := rfl
  exact ⟨⟨⟨110, rfl, by decide⟩, List.all_eq_true.mp (by decide)⟩, by decide, reads, fun whole =>
    nomatch reads.symm.trans whole.1⟩

end Owl.Grammar
