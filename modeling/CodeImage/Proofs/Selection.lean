import CodeImage.Patch.Run
import CodeImage.Proofs.Splicing

namespace CodeImage

namespace Text

theorem occursIn_iff {needle text : List Char} : occursIn needle text = true ↔ needle <:+: text := by
  induction text with
  | nil => simp [occursIn]
  | cons c rest ih => rw [occursIn, Bool.or_eq_true, ih, List.isPrefixOf_iff_prefix, List.infix_cons_iff]

theorem contains_iff {text needle : String} : contains text needle = true ↔ needle.toList <:+: text.toList := occursIn_iff

end Text

namespace StringIndex

variable {index : StringIndex} {textOf : UInt32 → Option String} {text : String} {id : UInt32}

-- What is found has the text that was asked for.
theorem text_of_find? (found : index.find? textOf text = some id) : textOf id = some text := by
  obtain ⟨entry, first, rfl⟩ := Option.map_eq_some_iff.mp found
  have passed := List.find?_some first
  simp only [Bool.and_eq_true, beq_iff_eq] at passed
  exact passed.2

theorem text_of_findPartial? (found : index.findPartial? textOf text = some id) :
    ∃ whole, textOf id = some whole ∧ Text.contains whole text = true := by
  obtain ⟨entry, first, rfl⟩ := Option.map_eq_some_iff.mp found
  have passed := List.find?_some first
  simp only [Bool.and_eq_true] at passed
  exact (Option.any_eq_true _ _).mp passed.2

end StringIndex

namespace Selector

variable {session : Session} {selector : Selector} {resolved : ResolvedSelector} {found : Fingerprint} {function : UInt32}

-- A text of the selector stands for no string.
def Unresolved (session : Session) (selector : Selector) : Prop :=
  (∃ name ∈ selector.identifier, session.findString? name = none) ∨
    ∃ text ∈ selector.strings, session.findPartialString? text = none

-- The fingerprint has the strings that the texts stand for and the instructions.
structure Accepts (session : Session) (selector : Selector) (found : Fingerprint) : Prop where
  named : ∀ name ∈ selector.identifier, session.findString? name = some found.name
  uses : ∀ opcode ∈ selector.opcodes, opcode ∈ found.opcodes
  refers : ∀ text ∈ selector.strings, ∃ id ∈ found.strings, session.findPartialString? text = some id

def Selects (session : Session) (selector : Selector) (function : UInt32) : Prop :=
  ∃ found, Fingerprint.ofFunction session function = .ok found ∧ selector.Accepts session found

-- The same with texts in the place of strings.
structure Describes (session : Session) (selector : Selector) (found : Fingerprint) : Prop where
  named : ∀ name ∈ selector.identifier, session.string? found.name = some name
  uses : ∀ opcode ∈ selector.opcodes, opcode ∈ found.opcodes
  refers : ∀ text ∈ selector.strings, ∃ id ∈ found.strings, ∃ whole, session.string? id = some whole ∧
    Text.contains whole text = true

theorem Accepts.describes (accepts : selector.Accepts session found) : selector.Describes session found := by
  refine ⟨?_, accepts.uses, ?_⟩
  · intro name listed
    exact StringIndex.text_of_find? (accepts.named name listed)
  · intro text listed
    obtain ⟨id, member, looked⟩ := accepts.refers text listed
    exact ⟨id, member, StringIndex.text_of_findPartial? looked⟩

-- What looking a text up gives.
theorem looked_up_iff {looked : Option UInt32} {reason : PatchError} {id : UInt32} :
    (match looked with
      | some id => Except.ok id
      | none => .error reason) = .ok id ↔ looked = some id := by
  cases looked with
  | none => simp
  | some id' => simp

theorem resolve_ok_iff : selector.resolve session = .ok resolved ↔
    selector.identifier.map session.findString? = resolved.identifier.map some ∧
      List.Forall₂ (fun text id => session.findPartialString? text = some id) selector.strings resolved.strings := by
  have name (identifier : Option UInt32) : (selector.identifier.mapM fun name =>
      match session.findString? name with
      | some id => Except.ok id
      | none => .error (PatchError.identifierNotFound name)) = .ok identifier ↔
        selector.identifier.map session.findString? = identifier.map some := by
    cases selector.identifier with
    | none => cases identifier <;> simp
    | some text =>
      rw [Option.mapM_some]
      cases looked : session.findString? text <;> cases identifier <;> simp [looked, Functor.map, Except.map]
  rw [resolve, bind_ok_iff]
  constructor
  · rintro ⟨identifier, named, more⟩
    obtain ⟨strings, listed, done⟩ := bind_ok_iff.mp more
    cases done
    exact ⟨(name identifier).mp named, (mapM_ok_iff.mp listed).imp fun _ _ => looked_up_iff.mp⟩
  · rintro ⟨named, listed⟩
    refine ⟨resolved.identifier, (name _).mpr named, bind_ok_iff.mpr ⟨resolved.strings, ?_, rfl⟩⟩
    exact mapM_ok_iff.mpr (listed.imp fun _ _ => looked_up_iff.mpr)

-- Looking up fails exactly if a text stands for no string.
theorem resolve_fails_iff : (∃ reason, selector.resolve session = .error reason) ↔ selector.Unresolved session := by
  constructor
  · rintro ⟨reason, failed⟩
    by_contra resolvable
    obtain ⟨names, texts⟩ := not_or.mp resolvable
    have identifier : ∃ identifier, selector.identifier.map session.findString? = Option.map some identifier := by
      cases given : selector.identifier with
      | none => exact ⟨none, rfl⟩
      | some name =>
        obtain ⟨id, looked⟩ := Option.ne_none_iff_exists'.mp fun missing => names ⟨name, given, missing⟩
        exact ⟨some id, by simp [looked]⟩
    have strings : List.Forall₂ (fun text id => session.findPartialString? text = some id) selector.strings
        (selector.strings.map fun text => (session.findPartialString? text).getD 0) := by
      refine List.forall₂_map_right_iff.mpr (List.forall₂_same.mpr ?_)
      intro text member
      obtain ⟨id, looked⟩ := Option.ne_none_iff_exists'.mp fun missing => texts ⟨text, member, missing⟩
      simp [looked]
    obtain ⟨name, named⟩ := identifier
    cases failed.symm.trans (resolve_ok_iff.mpr ⟨named, strings⟩ : selector.resolve session = .ok ⟨name, _⟩)
  · intro missing
    cases result : selector.resolve session with
    | error reason => exact ⟨reason, rfl⟩
    | ok resolved =>
      obtain ⟨named, listed⟩ := resolve_ok_iff.mp result
      rcases missing with ⟨name, given, missing⟩ | ⟨text, member, missing⟩
      · rw [Option.mem_def.mp given, Option.map_some, missing] at named
        cases same : resolved.identifier <;> simp [same] at named
      · obtain ⟨id, -, looked⟩ := exists_of_forall₂_left listed text member
        cases missing.symm.trans looked

theorem selects_iff (done : selector.resolve session = .ok resolved) :
    selector.selects resolved found = true ↔ selector.Accepts session found := by
  obtain ⟨named, listed⟩ := resolve_ok_iff.mp done
  simp only [selects, Bool.and_eq_true, List.all_eq_true, List.contains_iff_mem]
  constructor
  · rintro ⟨⟨name, uses⟩, strings⟩
    refine ⟨?_, uses, ?_⟩
    · intro text given
      rw [Option.mem_def.mp given, Option.map_some] at named
      cases same : resolved.identifier with
      | none => simp [same] at named
      | some id =>
        rw [same] at named name
        obtain rfl : id = found.name := by simpa using name
        simpa using named
    · intro text member
      obtain ⟨id, held, looked⟩ := exists_of_forall₂_left listed text member
      exact ⟨id, strings id held, looked⟩
  · rintro ⟨name, uses, refers⟩
    refine ⟨⟨?_, uses⟩, ?_⟩
    · cases given : selector.identifier with
      | none =>
        rw [given] at named
        cases same : resolved.identifier <;> simp [same] at named ⊢
      | some text =>
        rw [given, Option.map_some, name text given] at named
        cases same : resolved.identifier <;> simp_all
    · intro id held
      obtain ⟨text, member, looked⟩ := exists_of_forall₂_right listed id held
      obtain ⟨id', held', looked'⟩ := refers text member
      cases looked.symm.trans looked'
      exact held'

theorem Accepts.resolves (accepts : selector.Accepts session found) : ∃ resolved, selector.resolve session = .ok resolved := by
  cases done : selector.resolve session with
  | ok resolved => exact ⟨resolved, rfl⟩
  | error reason =>
    rcases resolve_fails_iff.mp ⟨reason, done⟩ with ⟨name, given, missing⟩ | ⟨text, member, missing⟩
    · cases missing.symm.trans (accepts.named name given)
    · obtain ⟨id, -, looked⟩ := accepts.refers text member
      cases missing.symm.trans looked

instance (session : Session) (selector : Selector) : DecidablePred (selector.Selects session) := fun function =>
  match found : Fingerprint.ofFunction session function, done : selector.resolve session with
  | .ok fingerprint, .ok resolved =>
    decidable_of_iff (selector.selects resolved fingerprint = true) <| by
      simp [Selects, found, selects_iff done]
  | .error _, _ => .isFalse <| by simp [Selects, found]
  | .ok _, .error _ => .isFalse <| by
    rintro ⟨_, -, accepts⟩
    obtain ⟨resolved, other⟩ := accepts.resolves
    cases done.symm.trans other

-- The candidates that a selector selects, as the session is.
def selected (session : Session) (candidates : List UInt32) (selector : Selector) : List UInt32 :=
  candidates.filter fun function => selector.Selects session function

end Selector
end CodeImage
