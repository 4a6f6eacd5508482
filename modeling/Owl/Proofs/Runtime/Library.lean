import Owl.Proofs.Runtime.Trees

/-! # The runtime library is sound

The words that a routine returns are good: it returns an operand or an element of one, a word that stands for
itself, a static text, or an object that it has just made. A list is made of the nodes and elements of the operands.
-/

namespace Owl.Runtime

open Owl.Lists StateExcept
open Option (Ensures)

variable {World : Type} {system : System World} {arena : ℕ} {statics : ℕ → Option StaticFunction} {start heap : Heap}
  {graph : Finset Object} {world : World} {kinds : List (Option Tag)} {result : Option Tag}

/-- A computation that returns a good term of a type. -/
def Makes (system : System World) (arena : ℕ) (statics : ℕ → Option StaticFunction) (start : Heap)
    (graph : Finset Object) (result : Option Tag) (prog : Allocating Term) : Prop :=
  Extends (Reached system.host arena statics start) graph prog fun there term =>
    Good (Atom system.host statics) there (.term term) ∧ accepts result term = true

/-- A result that may have any type. -/
private theorem Makes.untyped {prog : Allocating Term} (makes : Makes system arena statics start graph result prog) :
    Makes system arena statics start graph none prog :=
  .mono makes fun _ _ _ made => ⟨made.1, rfl⟩

/-- A routine is sound if the computation behind it is. -/
theorem routine_sound {body : Memory → World → List Term → Allocating Term}
    (makes : ∀ statics start graph world args, Memory.Settled system.host arena graph ⟨start, statics⟩ →
      List.Forall₂ (fun kind arg => accepts kind arg = true) kinds args →
      (∀ arg ∈ args, Good (Atom system.host statics) graph (.term arg)) →
      Makes system arena statics start graph result (body ⟨start, statics⟩ world args)) :
    RoutineSound system.host arena (System.routine body) kinds result := by
  rintro ⟨start, statics⟩ graph world args reply heap settled typed good ran allocated
  obtain ⟨⟨term, last, blocks⟩, run, finish⟩ := Except.bind_eq_ok.mp ran
  cases finish
  obtain ⟨graph', more, reached, made, kind⟩ := makes statics start graph world args settled typed good graph
    (start, []) term _ (le_refl graph) ⟨rfl, settled⟩ run
  obtain rfl : last = heap := Except.ok.inj (reached.blocks.symm.trans allocated)
  exact ⟨graph', more, reached.settled, made, kind⟩

theorem routine1_sound {kind : Option Tag} {body : Memory → World → Term → Allocating Term}
    (makes : ∀ statics start graph world arg, accepts kind arg = true →
      Good (Atom system.host statics) graph (.term arg) →
      Makes system arena statics start graph result (body ⟨start, statics⟩ world arg)) :
    RoutineSound system.host arena (System.routine1 body) [kind] result := by
  refine routine_sound fun statics start graph world args settled typed good => ?_
  obtain ⟨arg, _, first, rest, rfl⟩ := List.forall₂_cons_left_iff.mp typed
  obtain rfl := List.forall₂_nil_left_iff.mp rest
  exact makes statics start graph world arg first (good arg (by simp))

theorem routine2_sound {kind kind' : Option Tag} {body : Memory → World → Term → Term → Allocating Term}
    (makes : ∀ statics start graph world left right, accepts kind left = true →
      accepts kind' right = true → Good (Atom system.host statics) graph (.term left) →
      Good (Atom system.host statics) graph (.term right) →
      Makes system arena statics start graph result (body ⟨start, statics⟩ world left right)) :
    RoutineSound system.host arena (System.routine2 body) [kind, kind'] result := by
  refine routine_sound fun statics start graph world args settled typed good => ?_
  obtain ⟨left, _, first, others, rfl⟩ := List.forall₂_cons_left_iff.mp typed
  obtain ⟨right, _, second, rest, rfl⟩ := List.forall₂_cons_left_iff.mp others
  obtain rfl := List.forall₂_nil_left_iff.mp rest
  exact makes statics start graph world left right first second (good left (by simp)) (good right (by simp))

private theorem routine3_sound {kind kind' kind'' : Option Tag}
    {body : Memory → World → Term → Term → Term → Allocating Term}
    (makes : ∀ statics start graph world first second third, accepts kind first = true →
      Good (Atom system.host statics) graph (.term first) →
      Makes system arena statics start graph result (body ⟨start, statics⟩ world first second third)) :
    RoutineSound system.host arena (System.routine3 body) [kind, kind', kind''] result := by
  refine routine_sound fun statics start graph world args settled typed good => ?_
  obtain ⟨first, _, accepted, others, rfl⟩ := List.forall₂_cons_left_iff.mp typed
  obtain ⟨second, _, -, others', rfl⟩ := List.forall₂_cons_left_iff.mp others
  obtain ⟨third, _, -, rest, rfl⟩ := List.forall₂_cons_left_iff.mp others'
  obtain rfl := List.forall₂_nil_left_iff.mp rest
  exact makes statics start graph world first second third accepted (good first (by simp))

namespace System

/-- A word that stands for itself is returned as it is. -/
theorem makes_atom {term : Term} (self : Atom system.host statics term) :
    Makes system arena statics start graph none (pure term) :=
  .pure fun _ _ => ⟨.inl self, rfl⟩

theorem makes_read {α : Type} {look : Heap → Except Stop α} {next : α → Allocating Term}
    (rest : ∀ a, Makes system arena statics start graph result (next a)) :
    Makes system arena statics start graph result (Allocating.read look >>= next) := by
  have looked : Extends (Reached system.host arena statics start) graph (Allocating.read look) fun _ _ => True :=
    extends_read fun _ _ _ _ _ _ => trivial
  exact looked.bind fun _ a above _ => (rest a).above above

section Texts

variable (surrounds : system.host.Surrounds arena)

include surrounds

theorem makes_block {block : Bytes} (stops : 0 ∈ block) : Makes system arena statics start graph none (do
    let buffer ← Allocating.alloc system.scratch block
    return tagAs (UInt64.ofNat buffer) .string) := by
  refine .bind (extends_text surrounds stops) fun _ buffer _ made => .pure fun _ more => ⟨?_, rfl⟩
  refine .inr ⟨.string, by rw [tagOf_tagAs]; rfl, ?_⟩
  rw [extractPtr_tagAs_ofNat made.1]
  exact more made.2

theorem newString_makes (text : Bytes) : Makes system arena statics start graph none (system.newString text) :=
  makes_block surrounds (by simp)

omit surrounds in
private theorem mem_fill {size : ℕ} (positive : 0 < size) (text : Bytes) : 0 ∈ fill size text := by
  unfold fill
  split
  · exact List.mem_append_right _ (List.mem_replicate.mpr ⟨by omega, rfl⟩)
  · exact List.mem_replicate.mpr ⟨by omega, rfl⟩

private theorem atom_text {address : ℕ} (text : system.host.IsText address) :
    Atom system.host statics (tagAs (UInt64.ofNat address) .string) := by
  refine .inr (.inr (.inl ⟨tagOf_tagAs _ _, ?_⟩))
  rwa [extractPtr_tagAs_ofNat (surrounds.texts _ text).2]

theorem atom_literal {text : Bytes} (known : text ∈ literals) : Atom system.host statics (system.fromLiteral text) :=
  atom_text surrounds (system.host.isText_literal known)

private theorem owlStringConcat_makes (left right : Term) :
    Makes system arena statics start graph none (system.owlStringConcat world left right) :=
  makes_read fun _ => makes_read fun _ => newString_makes surrounds _

private theorem owlStringSlice_makes (string first last : Term) :
    Makes system arena statics start graph none (system.owlStringSlice world string first last) := by
  refine makes_read fun text => ?_
  split
  · exact newString_makes surrounds _
  · exact .throw _
  · exact .throw _

omit surrounds in
private theorem owlStringCount_makes (string : Term) :
    Makes system arena statics start graph none (system.owlStringCount world string) :=
  makes_read fun _ => makes_atom (atom_int _ _)

omit surrounds in
private theorem owlStringContains_makes (string substr : Term) :
    Makes system arena statics start graph none (system.owlStringContains world string substr) :=
  makes_read fun _ => makes_read fun _ => makes_atom (atom_bool _ _)

end Texts

section Lists

/-- A list that is an operand. -/
theorem listOf_extends {list : Term} (good : Good (Atom system.host statics) graph (.term list))
    (tag : tagOf list = Tag.list.bits) :
    Extends (Reached system.host arena statics start) graph (Allocating.read (system.listOf · list))
      fun there found => found.Known system.host statics there := by
  refine extends_read fun here heap found above settled look => ?_
  rw [listOf] at look
  split at look
  · next there _ =>
    cases look
    exact listAt_known settled (good.mono _ above) tag _ ‹_›
  · cases look

theorem accepts_tag {tag : Tag} {term : Term} (typed : accepts (some tag) term = true) : tagOf term = tag.bits := by
  simp only [accepts, Bool.and_eq_true, decide_eq_true_eq] at typed
  exact typed.1.1.1

private theorem owlListNth_makes {list : Term} (index : Term) (good : Good (Atom system.host statics) graph (.term list))
    (tag : tagOf list = Tag.list.bits) :
    Makes system arena statics start graph none (system.owlListNth list index) := by
  refine (listOf_extends good tag).bind fun here found above known => ?_
  split
  · next elem nth =>
    have found : Good (Atom system.host statics) here (.term elem) := by
      obtain ⟨slot, found, rest⟩ := Option.bind_eq_some_iff.mp nth
      have each := rrbNth_all known.elements _ slot found
      cases slot with
      | none => cases rest; exact .inl (atom_nil _)
      | some stored =>
        dsimp only at rest
        split at rest
        · cases rest; exact .inl (atom_nil _)
        · cases rest; exact each elem rfl
    exact .pure fun there more => ⟨found.mono _ more, rfl⟩
  · exact .throw _

private theorem owlListCount_makes {list : Term} (good : Good (Atom system.host statics) graph (.term list))
    (tag : tagOf list = Tag.list.bits) :
    Makes system arena statics start graph none (system.owlListCount list) :=
  (listOf_extends good tag).bind fun _ _ _ _ => makes_atom (atom_int _ _)

variable (surrounds : system.host.Surrounds arena)

include surrounds

private theorem owlListPush_makes {list elem : Term} (good : Good (Atom system.host statics) graph (.term list))
    (tag : tagOf list = Tag.list.bits) (goodElem : Good (Atom system.host statics) graph (.term elem)) :
    Makes system arena statics start graph (some .list) (system.owlListPush list elem) := by
  refine (listOf_extends good tag).bind fun here found above known => .ite (fun _ => ?_) fun _ => .throw _
  refine listFrom_extends surrounds rfl (by simpa using known) ?_
  exact rrbPushAt_all known.elements (goodElem.mono _ above)

private theorem owlListSlice_makes {list : Term} (first last : Term)
    (good : Good (Atom system.host statics) graph (.term list)) (tag : tagOf list = Tag.list.bits) :
    Makes system arena statics start graph (some .list) (system.owlListSlice list first last) := by
  refine (listOf_extends good tag).bind fun here found above known => ?_
  exact listFrom_extends surrounds rfl (by simpa using known) (rrbSliceAt_all known.elements _ _)

private theorem owlListConcat_makes {left right : Term} (good : Good (Atom system.host statics) graph (.term left))
    (good' : Good (Atom system.host statics) graph (.term right)) (tag : tagOf left = Tag.list.bits)
    (tag' : tagOf right = Tag.list.bits) :
    Makes system arena statics start graph (some .list) (system.owlListConcat left right) := by
  refine (listOf_extends good tag).bind fun here found above known => ?_
  refine (listOf_extends (good'.mono _ above) tag').bind fun there found' above' known' => ?_
  refine .ite (fun _ => ?_) fun _ => .throw _
  have known := known.mono above'
  refine listFrom_extends surrounds rfl ?_ (rrbConcat_all known.elements known'.elements)
  exact List.forall_mem_cons.mpr ⟨known, List.forall_mem_singleton.mpr known'⟩

private theorem owlConcat_makes {left right : Term} (good : Good (Atom system.host statics) graph (.term left))
    (good' : Good (Atom system.host statics) graph (.term right)) :
    Makes system arena statics start graph none (system.owlConcat world left right) := by
  refine .ite (fun _ => .throw _) fun same => .ite (fun _ => owlStringConcat_makes surrounds _ _) fun _ =>
    .ite (fun tag => ?_) fun _ => .throw _
  exact (owlListConcat_makes surrounds good good' tag ((not_not.mp same).symm.trans tag)).untyped

end Lists

section Terms

variable (surrounds : system.host.Surrounds arena)

include surrounds

private theorem datumString_makes (datum : Datum) : Makes system arena statics start graph none
    (system.datumString datum) := by
  unfold datumString
  split
  · exact .throw _
  · next text found =>
    split
    · exact makes_block surrounds (mem_fill (Nat.succ_pos _) text)
    · cases found
      exact makes_atom (atom_literal surrounds (by decide))
    · exact newString_makes surrounds text

omit surrounds in
/-- The name of a function is a static text. -/
private theorem functionName_isText (settled : Memory.Settled system.host arena graph ⟨heap, statics⟩) {term : Term}
    (good : Good (Atom system.host statics) graph (.term term)) (tag : tagOf term = Tag.function.bits) :
    system.host.IsText (functionName ⟨heap, statics⟩ (extractPtr term)) := by
  rw [functionName]
  dsimp only
  cases found : statics (extractPtr term) with
  | some record => exact settled.records _ record found
  | none =>
    refine settled.named ⟨.function, extractPtr term⟩ ((good_function good tag).resolve_left ?_) rfl
    simp [found]

private theorem owlTermToString_makes {term : Term} (good : Good (Atom system.host statics) graph (.term term)) :
    Makes system arena statics start graph none (system.owlTermToString world statics term) := by
  refine .ite (fun _ => makes_atom (atom_literal surrounds (by decide))) fun _ =>
    .ite (fun _ => makes_atom (atom_literal surrounds (by decide))) fun _ =>
    .ite (fun _ => makes_atom (atom_literal surrounds (by decide))) fun _ =>
    .ite (fun _ => .pure fun _ more => ⟨good.mono _ more, rfl⟩) fun _ => .ite (fun tag => ?_) fun _ => ?_
  · have named : Extends (Reached system.host arena statics start) graph
        (Allocating.read fun heap => .ok (functionName ⟨heap, statics⟩ (extractPtr term)))
        fun _ name => system.host.IsText name := by
      refine extends_read fun here heap name above settled look => ?_
      cases look
      exact functionName_isText settled (good.mono _ above) tag
    exact named.bind fun _ name _ text => makes_atom (atom_text surrounds text)
  · exact makes_read fun datum => datumString_makes surrounds datum

private theorem owlFilePwd_makes : Makes system arena statics start graph none (system.owlFilePwd world) :=
  makes_block surrounds (mem_fill system.pathMax_pos _)

private theorem pushEntries_makes (names : List Bytes) (graph : Finset Object) (list : Term)
    (good : Good (Atom system.host statics) graph (.term list)) (tag : tagOf list = Tag.list.bits) :
    Makes system arena statics start graph none (system.pushEntries names list) := by
  induction names generalizing graph list with
  | nil => exact .pure fun _ more => ⟨good.mono _ more, rfl⟩
  | cons name names ih =>
    refine .ite (fun _ => ih graph list good tag) fun _ => ?_
    refine (newString_makes surrounds name).bind fun here entry above made => ?_
    refine (owlListPush_makes surrounds (good.mono _ above) tag made.1).bind fun there pushed _ made => ?_
    exact ih there pushed made.1 (accepts_tag made.2)

private theorem owlFileLs_makes (path : Term) : Makes system arena statics start graph none (system.owlFileLs world path) :=
  makes_read fun _ => pushEntries_makes surrounds _ _ _ (emptyList_good surrounds _ _) (tagOf_tagAs _ _)

end Terms

/-- The runtime library makes well-formed objects of well-formed arguments. -/
theorem library (surrounds : system.host.Surrounds arena) : system.host.Library arena where
  routine := by
    simp only [routines, List.forall_mem_cons]
    refine ⟨?filePwd, ?concat, ?fileLs, ?listNth, ?listCount, ?listSlice, ?stringSlice, ?stringCount, ?stringContains,
      ?termToString, by simp⟩
    case filePwd => exact routine_sound fun _ _ _ _ _ _ _ _ => owlFilePwd_makes surrounds
    case concat => exact routine2_sound fun _ _ _ _ _ _ _ _ good good' => owlConcat_makes surrounds good good'
    case fileLs => exact routine1_sound fun _ _ _ _ path _ _ => owlFileLs_makes surrounds path
    case listNth =>
      exact routine2_sound fun _ _ _ _ _ index list _ good _ => owlListNth_makes index good (accepts_tag list)
    case listCount => exact routine1_sound fun _ _ _ _ _ list good => owlListCount_makes good (accepts_tag list)
    case listSlice =>
      exact routine3_sound fun _ _ _ _ _ first last list good =>
        (owlListSlice_makes surrounds first last good (accepts_tag list)).untyped
    case stringSlice => exact routine3_sound fun _ _ _ _ _ _ _ _ _ => owlStringSlice_makes surrounds _ _ _
    case stringCount => exact routine1_sound fun _ _ _ _ _ _ _ => owlStringCount_makes _
    case stringContains => exact routine2_sound fun _ _ _ _ _ _ _ _ _ _ => owlStringContains_makes _ _
    case termToString => exact routine1_sound fun _ _ _ _ _ _ good => owlTermToString_makes surrounds good
  listPush := routine2_sound fun _ _ _ _ _ _ list _ good elem => owlListPush_makes surrounds good (accepts_tag list) elem

end System

end Owl.Runtime
