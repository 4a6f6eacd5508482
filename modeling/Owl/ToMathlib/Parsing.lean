import Mathlib.Data.Nat.Basic
import Mathlib.Order.Basic
import Mathlib.Tactic.Common

/-! # Parsers of finite inputs

A parser takes a value from the front of an input or fails. A choice tries its second parser on the input
of the first one. The lemmas run a parser on an input step by step.
-/

/-- A parser: a state of remaining input that may fail. -/
abbrev Parser (σ : Type) (α : Type) := StateT (List σ) Option α

namespace Parser

variable {σ α β : Type}

/-- One given symbol. -/
def token [DecidableEq σ] (c : σ) : Parser σ PUnit
  | [] => none
  | d :: rest => if d = c then some (⟨⟩, rest) else none

/-- One symbol of a kind. -/
def satisfy (p : σ → Bool) : Parser σ σ
  | [] => none
  | d :: rest => if p d then some (d, rest) else none

/-- A given text. -/
def string [DecidableEq σ] (text : List σ) : Parser σ (List σ) := fun input =>
  if text.isPrefixOf input then some (text, input.drop text.length) else none

/-- The next symbol, which stays in the input. -/
def peekNext : Parser σ σ
  | [] => none
  | c :: rest => some (c, c :: rest)

/-- All symbols up to the first that is not of a kind. -/
def takeWhile (p : σ → Bool) : Parser σ (List σ) := fun input =>
  some (input.takeWhile p, input.dropWhile p)

/-- As `takeWhile`, but at least one symbol. -/
def takeWhile1 (p : σ → Bool) : Parser σ (List σ) := fun input =>
  if (input.takeWhile p).isEmpty then none else some (input.takeWhile p, input.dropWhile p)

/-- The first of two parsers that does not fail. -/
def or (first second : Parser σ α) : Parser σ α := fun input => (first input).or (second input)

/-- The first of some texts that starts the input. -/
def oneOf [DecidableEq σ] (texts : List (List σ)) : Parser σ (List σ) := (texts.map string).foldr or failure

/-- A parser, or a default where it fails. -/
def option (parser : Parser σ α) (default : α) : Parser σ α := or parser (pure default)

/-- Further values, each behind a separator. -/
def sepByMore (parser : Parser σ α) (separator : Parser σ PUnit) : ℕ → Parser σ (List α)
  | 0 => pure []
  | n + 1 => option (do
      separator
      let value ← parser
      let values ← sepByMore parser separator n
      return value :: values) []

/-- Any number of values with separators between them. A value takes a symbol, so the length of the input
bounds their number. -/
def sepBy (parser : Parser σ α) (separator : Parser σ PUnit) : Parser σ (List α) := fun input =>
  option (do
    let value ← parser
    let values ← sepByMore parser separator input.length
    return value :: values) [] input

section Running

variable {parser first second : Parser σ α} {next : α → Parser σ β} {input rest : List σ} {a : α} {c d : σ}
  {p : σ → Bool} {text : List σ}

theorem pure_run : (pure a : Parser σ α) input = some (a, input) := rfl

theorem bind_some (done : parser input = some (a, rest)) : (parser >>= next) input = next a rest := by
  change (parser input >>= fun x => next x.1 x.2) = _
  rw [done]
  rfl

theorem bind_none (failed : parser input = none) : (parser >>= next) input = none := by
  change (parser input >>= fun x => next x.1 x.2) = _
  rw [failed]
  rfl

theorem or_some (done : first input = some (a, rest)) : or first second input = some (a, rest) := by
  rw [or, done]
  rfl

theorem or_none (failed : first input = none) : or first second input = second input := by
  rw [or, failed]
  rfl

theorem option_none {default : α} (failed : parser input = none) : option parser default input = some (default, input) :=
  or_none failed

theorem token_self [DecidableEq σ] (c : σ) (rest : List σ) : token c (c :: rest) = some (⟨⟩, rest) := if_pos rfl

theorem token_ne [DecidableEq σ] (differs : input.head? ≠ some c) : token c input = none := by
  cases input with
  | nil => rfl
  | cons d rest => exact if_neg fun same => differs (congrArg some same)

private theorem satisfy_none (fails : ∀ d ∈ input.head?, p d = false) : satisfy p input = none := by
  cases input with
  | nil => rfl
  | cons d rest => exact if_neg (by rw [fails d rfl]; decide)

theorem string_append [DecidableEq σ] (text rest : List σ) : string text (text ++ rest) = some (text, rest) := by
  rw [string, if_pos (List.isPrefixOf_iff_prefix.mpr (List.prefix_append ..)), List.drop_left]

theorem string_none [DecidableEq σ] (differs : ¬ text <+: input) : string text input = none :=
  if_neg fun found => differs (List.isPrefixOf_iff_prefix.mp found)

theorem string_head_ne [DecidableEq σ] (differs : input.head? ≠ some c) : string (c :: text) input = none := by
  apply string_none
  rintro ⟨rest, rfl⟩
  exact differs rfl

theorem takeWhile_append {taken : List σ} (all : ∀ d ∈ taken, p d) (stops : ∀ d ∈ rest.head?, p d = false) :
    takeWhile p (taken ++ rest) = some (taken, rest) := by
  have none : rest.takeWhile p = [] ∧ rest.dropWhile p = rest := by
    cases rest with
    | nil => exact ⟨rfl, rfl⟩
    | cons d rest => simp [stops d rfl]
  rw [takeWhile, List.takeWhile_append_of_pos all, List.dropWhile_append_of_pos all, none.1, none.2, List.append_nil]

theorem takeWhile1_append {taken : List σ} (some' : taken ≠ []) (all : ∀ d ∈ taken, p d)
    (stops : ∀ d ∈ rest.head?, p d = false) : takeWhile1 p (taken ++ rest) = some (taken, rest) := by
  have run := takeWhile_append all stops
  rw [takeWhile, Option.some.injEq, Prod.mk.injEq] at run
  rw [takeWhile1, run.1, run.2, if_neg (by simpa using some')]

private theorem takeWhile1_none (stops : ∀ d ∈ input.head?, p d = false) : takeWhile1 p input = none := by
  rw [takeWhile1, if_pos]
  cases input with
  | nil => rfl
  | cons d rest => simp [stops d rfl]

theorem satisfy_cons_none (fails : p c = false) : satisfy p (c :: rest) = none :=
  satisfy_none (by rintro d ⟨rfl⟩; exact fails)

/-- A text of one kind of symbols ends before the first other symbol. -/
theorem prefix_of_prefix_append {taken : List σ} (all : ∀ d ∈ text, p d) (stops : ∀ d ∈ rest.head?, p d = false)
    (found : text <+: taken ++ rest) : text <+: taken := by
  induction text generalizing taken with
  | nil => exact List.nil_prefix
  | cons c text ih =>
    rw [List.forall_mem_cons] at all
    cases taken with
    | nil =>
      obtain ⟨tail, rfl⟩ : ∃ tail, rest = c :: tail := by
        obtain ⟨tail, whole⟩ := found
        exact ⟨text ++ tail, whole.symm⟩
      exact absurd all.1 (Bool.eq_false_iff.mp (stops c rfl))
    | cons d taken =>
      rw [List.cons_append, List.cons_prefix_cons] at found
      exact List.cons_prefix_cons.mpr ⟨found.1, ih all.2 found.2⟩

private theorem oneOf_failed [DecidableEq σ] {texts : List (List σ)} (failed : ∀ text ∈ texts, ¬ text <+: input) :
    oneOf texts input = none := by
  induction texts with
  | nil => rfl
  | cons text texts ih =>
    rw [List.forall_mem_cons] at failed
    exact (or_none (string_none failed.1)).trans (ih failed.2)

end Running

/-- A parser that fails unless the input starts with a symbol of a kind. -/
def Starts (kind : σ → Prop) (parser : Parser σ α) : Prop :=
  ∀ input : List σ, (∀ c ∈ input.head?, ¬ kind c) → parser input = none

section Starts

variable {kind kind' : σ → Prop} {parser first second : Parser σ α} {next : α → Parser σ β}

theorem Starts.cons {c : σ} (starts : Starts kind parser) (other : ¬ kind c) (rest : List σ) :
    parser (c :: rest) = none :=
  starts (c :: rest) (by rintro d ⟨rfl⟩; exact other)

theorem Starts.nil (starts : Starts kind parser) : parser [] = none := starts [] (fun _ impossible => nomatch impossible)

theorem Starts.mono (starts : Starts kind parser) (weaker : ∀ c, kind c → kind' c) : Starts kind' parser :=
  fun input other => starts input fun c head => mt (weaker c) (other c head)

theorem Starts.token [DecidableEq σ] (c : σ) : Starts (· = c) (token c) :=
  fun _ other => token_ne fun head => other c head rfl

theorem Starts.string [DecidableEq σ] (c : σ) (text : List σ) : Starts (· = c) (string (c :: text)) :=
  fun _ other => string_head_ne fun head => other c head rfl

theorem Starts.oneOf [DecidableEq σ] {texts : List (List σ)} (starts : ∀ text ∈ texts, ∃ c ∈ text.head?, kind c) :
    Starts kind (oneOf texts) := by
  intro input other
  apply oneOf_failed
  rintro text member ⟨rest, rfl⟩
  obtain ⟨c, head, ofKind⟩ := starts text member
  obtain ⟨tail, rfl⟩ := List.head?_eq_some_iff.mp head
  exact other c rfl ofKind

theorem Starts.takeWhile1 (p : σ → Bool) : Starts (p · = true) (takeWhile1 p) :=
  fun _ other => takeWhile1_none fun c head => Bool.eq_false_iff.mpr (other c head)

theorem Starts.bind (starts : Starts kind parser) : Starts kind (parser >>= next) :=
  fun input other => bind_none (starts input other)

theorem Starts.or (startsFirst : Starts kind first) (startsSecond : Starts kind second) :
    Starts kind (first.or second) :=
  fun input other => (or_none (startsFirst input other)).trans (startsSecond input other)

theorem Starts.option_bind (starts : Starts kind parser) (a : α) (startsNext : ∀ a, Starts kind (next a)) :
    Starts kind (parser.option a >>= next) :=
  fun input other => (bind_some (option_none (starts input other))).trans (startsNext a input other)

end Starts

/-- Two parsers do the same on the inputs below a length, and leave no more than they got. -/
def AgreeBelow (bound : ℕ) (first second : Parser σ α) : Prop :=
  ∀ input : List σ, input.length < bound →
    first input = second input ∧ ∀ a rest, first input = some (a, rest) → rest.length ≤ input.length

/-- A parser that never leaves more than it got. -/
def Shrinks (parser : Parser σ α) : Prop :=
  ∀ input a rest, parser input = some (a, rest) → rest.length ≤ input.length

/-- A parser that leaves less than it got. -/
def Consumes (parser : Parser σ α) : Prop :=
  ∀ input a rest, parser input = some (a, rest) → rest.length < input.length

section Bounds

variable {bound : ℕ} {parser first second first' second' : Parser σ α} {next next' : α → Parser σ β} {p : σ → Bool}

theorem Consumes.shrinks (consumes : Consumes parser) : Shrinks parser :=
  fun input a rest run => (consumes input a rest run).le

theorem Shrinks.agree (shrinks : Shrinks parser) : AgreeBelow bound parser parser :=
  fun input _ => ⟨rfl, shrinks input⟩

theorem bind_eq_some {input : List σ} {b : β} {rest : List σ} (run : (parser >>= next) input = some (b, rest)) :
    ∃ a middle, parser input = some (a, middle) ∧ next a middle = some (b, rest) := by
  change (parser input >>= fun x => next x.1 x.2) = _ at run
  obtain ⟨⟨a, middle⟩, done, run⟩ := Option.bind_eq_some_iff.mp run
  exact ⟨a, middle, done, run⟩

theorem AgreeBelow.bind (agree : AgreeBelow bound first second) (agreeNext : ∀ a, AgreeBelow bound (next a) (next' a)) :
    AgreeBelow bound (first >>= next) (second >>= next') := by
  intro input short
  obtain ⟨same, shrinks⟩ := agree input short
  cases run : first input with
  | none =>
    rw [bind_none run, bind_none (same ▸ run)]
    exact ⟨rfl, fun _ _ impossible => nomatch impossible⟩
  | some done =>
    obtain ⟨a, middle⟩ := done
    have shorter := shrinks a middle run
    rw [bind_some run, bind_some (same ▸ run)]
    refine ⟨(agreeNext a middle (by omega)).1, fun b rest ran => ?_⟩
    exact ((agreeNext a middle (by omega)).2 b rest ran).trans shorter

/-- What follows a parser that takes a symbol runs on a shorter input. -/
theorem AgreeBelow.bind_consumes (consumes : Consumes parser) (agreeNext : ∀ a, AgreeBelow bound (next a) (next' a)) :
    AgreeBelow (bound + 1) (parser >>= next) (parser >>= next') := by
  intro input short
  cases run : parser input with
  | none =>
    rw [bind_none run, bind_none run]
    exact ⟨rfl, fun _ _ impossible => nomatch impossible⟩
  | some done =>
    obtain ⟨a, middle⟩ := done
    have shorter := consumes input a middle run
    rw [bind_some run, bind_some run]
    refine ⟨(agreeNext a middle (by omega)).1, fun b rest ran => ?_⟩
    exact ((agreeNext a middle (by omega)).2 b rest ran).trans shorter.le

theorem AgreeBelow.or (agreeFirst : AgreeBelow bound first first') (agreeSecond : AgreeBelow bound second second') :
    AgreeBelow bound (first.or second) (first'.or second') := by
  intro input short
  obtain ⟨same, shrinks⟩ := agreeFirst input short
  cases run : first input with
  | none =>
    rw [or_none run, or_none (same ▸ run)]
    exact agreeSecond input short
  | some done =>
    rw [or_some run, or_some (same ▸ run)]
    exact ⟨rfl, fun a rest ran => shrinks a rest (run.trans ran)⟩

theorem AgreeBelow.pure (a : α) : AgreeBelow bound (pure a : Parser σ α) (pure a) := by
  apply Shrinks.agree
  intro input b rest run
  cases run
  exact le_rfl

theorem AgreeBelow.option (agree : AgreeBelow bound first second) (a : α) :
    AgreeBelow bound (first.option a) (second.option a) := agree.or (.pure a)

theorem AgreeBelow.sepByMore {separator : Parser σ PUnit} (agree : AgreeBelow bound first second)
    (shrinks : Shrinks separator) (count : ℕ) :
    AgreeBelow bound (sepByMore first separator count) (sepByMore second separator count) := by
  induction count with
  | zero => exact .pure []
  | succ count ih => exact .option (.bind shrinks.agree fun _ => .bind agree fun _ => .bind ih fun _ => .pure _) []

theorem AgreeBelow.sepBy {separator : Parser σ PUnit} (agree : AgreeBelow bound first second)
    (shrinks : Shrinks separator) : AgreeBelow bound (first.sepBy separator) (second.sepBy separator) :=
  fun input short =>
    AgreeBelow.option (.bind agree fun _ => .bind (.sepByMore agree shrinks input.length) fun _ => .pure _) [] input short

theorem AgreeBelow.shrinks (agree : ∀ bound, AgreeBelow bound parser parser) : Shrinks parser :=
  fun input => (agree _ input (Nat.lt_succ_self _)).2

theorem Shrinks.takeWhile (p : σ → Bool) : Shrinks (takeWhile p) := by
  intro input a rest run
  cases run
  exact (List.dropWhile_sublist p).length_le

theorem Consumes.satisfy (p : σ → Bool) : Consumes (satisfy p) := by
  intro input a rest run
  cases input with
  | nil => cases run
  | cons d input =>
    rw [Parser.satisfy] at run
    split at run
    · cases run
      exact Nat.lt_succ_self _
    · cases run

theorem Consumes.token [DecidableEq σ] (c : σ) : Consumes (token c) := by
  intro input a rest run
  cases input with
  | nil => cases run
  | cons d input =>
    rw [Parser.token] at run
    split at run
    · cases run
      exact Nat.lt_succ_self _
    · cases run

theorem Consumes.string [DecidableEq σ] (c : σ) (text : List σ) : Consumes (string (c :: text)) := by
  intro input a rest run
  rw [Parser.string] at run
  split at run
  next found =>
    cases run
    have length := (List.isPrefixOf_iff_prefix.mp found).length_le
    rw [List.length_drop]
    rw [List.length_cons] at length ⊢
    omega
  next => cases run

theorem Consumes.takeWhile1 (p : σ → Bool) : Consumes (takeWhile1 p) := by
  intro input a rest run
  rw [Parser.takeWhile1] at run
  split at run
  next => cases run
  next some' =>
    cases run
    have length := congrArg List.length (List.takeWhile_append_dropWhile (p := p) (l := input))
    rw [List.isEmpty_iff_length_eq_zero] at some'
    rw [List.length_append] at length
    omega

theorem Consumes.or (consumesFirst : Consumes first) (consumesSecond : Consumes second) :
    Consumes (first.or second) := by
  intro input a rest run
  cases ran : first input with
  | none => exact consumesSecond input a rest ((or_none ran).symm.trans run)
  | some done => exact consumesFirst input a rest (ran.trans ((or_some ran).symm.trans run))

end Bounds

end Parser
