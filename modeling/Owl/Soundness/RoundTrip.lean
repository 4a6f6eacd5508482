import Owl.Proofs.Compiler.Accepted
import Owl.Soundness.LinkedCalls

/-! # Reading what has been written

The parser accepts exactly the modules that can be written: the text of such a module is read as the module in any
spacing, and what is read from any input has such a text. Names that are read keep the promises on which calls
between modules rest.
-/

namespace Owl.Grammar

open Owl.Compiler Parser

section Reading

variable [Ascii] {spacing : Spacing}

private theorem function_starts (expr : Parser UInt8 Expr) : Starts (· = 102) (function expr) :=
  (Starts.string 102 _).bind

private theorem function_run {f : FunctionDef} (writable : WritableFunction f) (rest : Bytes) :
    function reader (spacing.functionText f ++ rest) = some (f, rest) := by
  have spelled : spacing.functionText f ++ rest = bytes "fn" ++ (spacing.space :: (f.name ++ 40 :: (spacing.commas f.args ++
      41 :: (spacing.line ++ (spacing.blockText (spacing.exprTexts f.body) ++ rest))))) := by
    simp [Spacing.functionText]
  have named := @identOf_run _ isLowercase f.name (40 :: (spacing.commas f.args ++
    41 :: (spacing.line ++ (spacing.blockText (spacing.exprTexts f.body) ++ rest)))) writable.isName
      (by rintro c ⟨rfl⟩; rfl)
  have shown : ∀ c ∈ (spacing.commas f.args ++ 41 :: (spacing.line ++ (spacing.blockText (spacing.exprTexts f.body) ++
    rest))).head?,
      Chomp.isWhitespace c = false := by
    intro c head
    cases args : f.args with
    | nil =>
      rw [args] at head
      cases head
      exact Ascii.space_lt (by decide)
    | cons arg args' =>
      obtain ⟨⟨d, first, lower⟩, -⟩ := writable.args arg (args ▸ List.mem_cons_self)
      obtain ⟨tail, rfl⟩ := List.head?_eq_some_iff.mp first
      rw [args] at head
      cases head
      exact Ascii.space_lt (exprStart_visible (.inl (.inr (.inr (.inr (.inr lower)))))).1
  have closes := @skipWhitespace_none _ (41 :: (spacing.line ++ (spacing.blockText (spacing.exprTexts f.body) ++ rest)))
    (by rintro c ⟨rfl⟩; exact Ascii.space_lt (by decide))
  rw [spelled, function, bind_some (string_append _ _), bind_some (spacing.space_run _), identifier, bind_some named,
    bind_some (token_self 40 _), bind_some (skipWhitespace_none shown), bind_some (names_read writable.args _),
    bind_some closes, bind_some (token_self 41 _), bind_some (line_block_run _ _),
    bind_some (block_reads (fun e member => (writable.body e member).readable) rest)]
  rfl

private theorem module_run {m : ModuleDef} (writable : WritableModule m) :
    module reader (spacing.moduleText m) = some (m, []) := by
  have parts : ReadsEach (function reader) skipNewlineAndWhitespace spacing.functionText spacing.line
      (fun _ => True) m.functions :=
    { longer := List.ne_nil_of_length_pos (Nat.lt_of_lt_of_le Nat.zero_lt_two spacing.line_long)
      reads := fun f member rest _ => function_run (writable.functions f member) rest
      skips := fun f rest _ => spacing.line_run (by rintro c ⟨rfl⟩; decide)
      next := fun _ _ _ => trivial }
  have named := @identOf_run _ isUppercase m.name (spacing.line ++ 123 :: (spacing.line ++
    (separated spacing.line (m.functions.map spacing.functionText) ++ (spacing.line ++ 125 :: spacing.line))))
    writable.isName fun c head => ((spacing.line_closer_ends (show 123 ∈ closers by decide) _).word c head).1
  have opening := @Spacing.line_run _ spacing (123 :: (spacing.line ++
    (separated spacing.line (m.functions.map spacing.functionText) ++ (spacing.line ++ 125 :: spacing.line))))
    (closer_visible (by decide))
  have ending : skipNewlineAndWhitespace spacing.line = some (⟨⟩, []) := by
    have run := @Spacing.line_run _ spacing [] (by rintro c ⟨⟩)
    rwa [List.append_nil] at run
  rw [Spacing.moduleText, module, bind_some (string_append _ _), bind_some (spacing.space_run _), capitalizedIdent,
    bind_some named, bind_some opening, bind_some (token_self 123 _)]
  apply (lines_read parts (function_starts _) (by rintro c rfl; decide) (by decide) trivial).trans
  rw [bind_some ending]
  rfl

private theorem writable_of_parse {input : Bytes} {m : ModuleDef} (reads : parseModule input = some m) :
    WritableModule m := by
  obtain ⟨⟨m', rest⟩, run, same⟩ := Option.map_eq_some_iff.mp reads
  obtain rfl : m' = m := same
  exact module_yields (expr_yields _) input m' rest run

end Reading

variable [chomp : Chomp]

/-- What the compiler makes of an input is what runs are made of: the parser gives names that keep link names apart. -/
theorem compiles_of_parse {input bytecode : Bytes} {m : ModuleDef} {compiled : Module}
    (reads : parseModule input = some m) (generated : generate m = .ok compiled)
    (emitted : compiled.emit = .ok bytecode) (short : ∀ entry ∈ Format.moduleTexts compiled, entry.2.length < 255) :
    ∃ definitions, Format.Compiles m definitions bytecode ∧
      definitions.map Format.Definition.function = compiled.functions := by
  obtain ⟨ascii, rfl⟩ := chomp.exists_ascii
  have writable := writable_of_parse reads
  exact Format.compiles_of_generate generated emitted writable.isName (fun f member =>
    (writable.functions f member).isName) short

/-- A module can be written exactly when the parser accepts some input as this module, and then it reads the module
from its text in any spacing. -/
theorem parseModule_tfae (spacing : Spacing) (m : ModuleDef) :
    [WritableModule m, ∃ input, parseModule input = some m, parseModule (spacing.moduleText m) = some m].TFAE := by
  obtain ⟨ascii, rfl⟩ := chomp.exists_ascii
  tfae_have 1 → 3 := fun writable => by
    rw [parseModule_eq, module_run writable]
    rfl
  tfae_have 3 → 2 := fun reads => ⟨_, reads⟩
  tfae_have 2 → 1 := by
    rintro ⟨input, reads⟩
    exact writable_of_parse reads
  tfae_finish

end Owl.Grammar
