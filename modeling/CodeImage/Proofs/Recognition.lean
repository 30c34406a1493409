import CodeImage.Proofs.StringIndex

-- Texts are compared through the one string that each of them is looked up as: a function with another string of the
-- same text is passed over.

namespace CodeImage

theorem mem_eraseReps_loop {α : Type} [BEq α] [LawfulBEq α] {x a : α} {rest seen : List α} :
    x ∈ List.eraseRepsBy.loop (· == ·) a rest seen ↔ x ∈ seen ∨ x = a ∨ x ∈ rest := by
  induction rest generalizing a seen with
  | nil => simp [List.eraseRepsBy.loop, or_comm]
  | cons b rest ih =>
    rw [List.eraseRepsBy.loop]
    split
    · next same =>
      rw [ih, eq_of_beq same]
      simp
    · rw [ih]
      simp [or_assoc, or_left_comm]

namespace Fingerprint

theorem mem_ascending_iff {ids : List UInt32} {id : UInt32} : id ∈ ascending ids ↔ id ∈ ids := by
  have kept (sorted : List UInt32) : id ∈ sorted.eraseReps ↔ id ∈ sorted := by
    cases sorted with
    | nil => rfl
    | cons first rest =>
      refine mem_eraseReps_loop.trans ?_
      simp
  rw [ascending, kept, List.mem_mergeSort]

variable {session : Session} {function name : UInt32} {insns : List Instruction}

theorem mem_opcodes_iff {opcode : Opcode} :
    opcode ∈ (ofInstructions name insns).opcodes ↔ ∃ insn ∈ insns, insn.opcode = opcode := by
  have every : opcode ∈ Opcode.all := List.mem_map.mpr ⟨opcode.code, List.mem_finRange _, rfl⟩
  simp [ofInstructions, every]

theorem mem_strings_iff {id : UInt32} :
    id ∈ (ofInstructions name insns).strings ↔ ∃ insn ∈ insns, ∃ place, (place, id) ∈ insn.references .string := by
  simp [ofInstructions, mem_ascending_iff, referred]

theorem ofFunction_ok {func : Func} {rope : Rope} {insns : List Located} (known : session.image.function function = .ok func)
    (coded : session.code function = .ok rope) (decoded : Instruction.decodeBody rope.toBytes = .ok insns) :
    ofFunction session function = .ok (ofInstructions func.header.functionName (insns.map (·.insn))) := by
  simp only [ofFunction, Session.liftImage_ok_iff.mpr known, coded, Session.liftImage_ok_iff.mpr decoded, ok_bind]
  rfl

end Fingerprint

namespace Selector

variable {session : Session} {selector : Selector} {function : UInt32} {func : Func} {insns : List Located}

-- A function is counted: its fingerprint is compared with the strings that the texts were looked up as.
def Counts (session : Session) (selector : Selector) (function : UInt32) : Prop :=
  ∃ resolved found, selector.resolve session = .ok resolved ∧ Fingerprint.ofFunction session function = .ok found ∧
    selector.selects resolved found = true

-- The texts of the selector fit the function.
structure Fits (session : Session) (selector : Selector) (func : Func) (insns : List Located) : Prop where
  named : ∀ name ∈ selector.identifier, session.string? func.header.functionName = some name
  uses : ∀ opcode ∈ selector.opcodes, ∃ here ∈ insns, here.insn.opcode = opcode
  refers : ∀ text ∈ selector.strings, ∃ here ∈ insns, ∃ place id, (place, id) ∈ here.insn.references .string ∧
    ∃ whole, session.string? id = some whole ∧ Text.contains whole text = true

-- The function has the first string with the name, and for each text the shortest string that contains it.
structure Picks (session : Session) (selector : Selector) (func : Func) (insns : List Located) : Prop where
  named : ∀ name ∈ selector.identifier, IsLeast {id | session.string? id = some name} func.header.functionName
  uses : ∀ opcode ∈ selector.opcodes, ∃ here ∈ insns, here.insn.opcode = opcode
  refers : ∀ text ∈ selector.strings, ∃ here ∈ insns, ∃ place id, (place, id) ∈ here.insn.references .string ∧
    StringIndex.Shortest session.string? text id

-- No two strings have the name, and no two contain one of the texts.
structure Unambiguous (session : Session) (selector : Selector) : Prop where
  name : ∀ name ∈ selector.identifier, ∀ a b, session.string? a = some name → session.string? b = some name → a = b
  texts : ∀ text ∈ selector.strings, ∀ a b whole whole', session.string? a = some whole → session.string? b = some whole' →
    Text.contains whole text = true → Text.contains whole' text = true → a = b

theorem counts_iff_selects : selector.Counts session function ↔ selector.Selects session function := by
  constructor
  · rintro ⟨resolved, found, done, taken, selects⟩
    exact ⟨found, taken, (selects_iff done).mp selects⟩
  · rintro ⟨found, taken, accepts⟩
    obtain ⟨resolved, done⟩ := accepts.resolves
    exact ⟨resolved, found, done, taken, (selects_iff done).mpr accepts⟩

-- With an index that lists all strings, the strings that are looked up are the least ones.
theorem accepts_iff (exact : session.index.Exact session.string?) :
    selector.Accepts session (Fingerprint.ofInstructions func.header.functionName (insns.map (·.insn))) ↔
      selector.Picks session func insns := by
  have uses {opcode : Opcode} : opcode ∈ (Fingerprint.ofInstructions func.header.functionName (insns.map (·.insn))).opcodes ↔
      ∃ here ∈ insns, here.insn.opcode = opcode := by
    simp [Fingerprint.mem_opcodes_iff]
  have refers {id : UInt32} : id ∈ (Fingerprint.ofInstructions func.header.functionName (insns.map (·.insn))).strings ↔
      ∃ here ∈ insns, ∃ place, (place, id) ∈ here.insn.references .string := by
    simp [Fingerprint.mem_strings_iff]
  constructor
  · rintro ⟨named, used, referred⟩
    refine ⟨fun name given => exact.find?_iff.mp (named name given), fun opcode listed => uses.mp (used opcode listed), ?_⟩
    intro text listed
    obtain ⟨id, member, looked⟩ := referred text listed
    obtain ⟨here, inside, place, held⟩ := refers.mp member
    exact ⟨here, inside, place, id, held, exact.findPartial?_iff.mp looked⟩
  · rintro ⟨named, used, referred⟩
    refine ⟨fun name given => exact.find?_iff.mpr (named name given), fun opcode listed => uses.mpr (used opcode listed), ?_⟩
    intro text listed
    obtain ⟨here, inside, place, id, held, shortest⟩ := referred text listed
    exact ⟨id, refers.mpr ⟨here, inside, place, held⟩, exact.findPartial?_iff.mpr shortest⟩

theorem Picks.fits (picks : selector.Picks session func insns) : selector.Fits session func insns := by
  refine ⟨fun name given => (picks.named name given).1, picks.uses, ?_⟩
  intro text listed
  obtain ⟨here, inside, place, id, held, whole, known, contains, -⟩ := picks.refers text listed
  exact ⟨here, inside, place, id, held, whole, known, contains⟩

theorem Fits.picks (fits : selector.Fits session func insns) (clear : selector.Unambiguous session) :
    selector.Picks session func insns := by
  refine ⟨?_, fits.uses, ?_⟩
  · intro name given
    refine ⟨fits.named name given, ?_⟩
    intro other known
    exact UInt32.le_of_eq (clear.name name given _ _ (fits.named name given) known)
  · intro text listed
    obtain ⟨here, inside, place, id, held, whole, known, contains⟩ := fits.refers text listed
    refine ⟨here, inside, place, id, held, whole, known, contains, ?_⟩
    intro other whole' known' contains'
    obtain rfl := clear.texts text listed id other whole whole' known known' contains contains'
    cases known.symm.trans known'
    exact .inr ⟨rfl, UInt32.le_refl _⟩

end Selector

namespace Session

variable {image : Image} {operations : List Operation} {function : UInt32} {func : Func} {rope : Rope} {insns : List Located}

theorem counts_iff_picks (good : image.WellFormed) (few : image.strings.size + (addedBy operations).length < 2 ^ 32)
    (known : ((start image).run operations).image.function function = .ok func)
    (coded : ((start image).run operations).code function = .ok rope)
    (decoded : Instruction.decodeBody rope.toBytes = .ok insns) (selector : Selector) :
    selector.Counts ((start image).run operations) function ↔ selector.Picks ((start image).run operations) func insns := by
  rw [Selector.counts_iff_selects, Selector.Selects, Fingerprint.ofFunction_ok known coded decoded]
  simp only [Except.ok.injEq, exists_eq_left']
  exact Selector.accepts_iff (exact_run good.toReadable operations few)

-- A function is counted by the strings that the texts of a selector are looked up as.
theorem selection_by_least_strings (good : image.WellFormed)
    (few : image.strings.size + (addedBy operations).length < 2 ^ 32)
    (known : ((start image).run operations).image.function function = .ok func)
    (coded : ((start image).run operations).code function = .ok rope)
    (decoded : Instruction.decodeBody rope.toBytes = .ok insns) (selector : Selector) :
    (selector.Counts ((start image).run operations) function ↔ selector.Picks ((start image).run operations) func insns) ∧
    -- What is counted fits by text, and what fits is counted if its texts are in one string each.
    (selector.Counts ((start image).run operations) function → selector.Fits ((start image).run operations) func insns) ∧
    (selector.Unambiguous ((start image).run operations) →
      (selector.Counts ((start image).run operations) function ↔
        selector.Fits ((start image).run operations) func insns)) := by
  have counted := counts_iff_picks good few known coded decoded selector
  refine ⟨counted, fun counts => (counted.mp counts).fits, ?_⟩
  intro clear
  exact counted.trans ⟨Selector.Picks.fits, fun fits => fits.picks clear⟩

-- Two strings with one text, and two that contain another. The first function has the later ones, the second the earlier.
def sampleTwins : Image :=
  let image := ((((({} : Image).addString "f").1.addString "f").1.addString "get").1.addString "getter").1
  { image with
    functions := #[⟨{ functionName := 1 }, 0, none, none⟩, ⟨{ functionName := 0 }, 1, none, none⟩]
    bodies := #[⟨⟨#[115, 0, 3, 0, 92, 0]⟩, none⟩, ⟨⟨#[115, 0, 2, 0, 92, 0]⟩, none⟩] }

theorem sampleTwins_wellFormed : sampleTwins.WellFormed :=
  ⟨⟨by unfold StringTable.InStorage; decide +kernel, rfl, rfl⟩, by decide +kernel,
    by unfold OffsetTable.InStorage; decide +kernel, by unfold OffsetTable.InStorage; decide +kernel⟩

def sampleBody (id : Nat) : List Located :=
  [⟨0, 4, ⟨sampleOpcode 115, [.int 0, .int id]⟩⟩, ⟨4, 2, ⟨sampleOpcode 92, [.int 0]⟩⟩]

theorem sampleTwins_strings :
    (start sampleTwins).string? 0 = some "f" ∧ (start sampleTwins).string? 1 = some "f" ∧
      (start sampleTwins).string? 2 = some "get" ∧ (start sampleTwins).string? 3 = some "getter" := by decide +kernel

theorem sampleTwins_only {id : UInt32} {text : String} (known : (start sampleTwins).string? id = some text) :
    (id, text) ∈ [(0, "f"), (1, "f"), (2, "get"), (3, "getter")] := by
  obtain ⟨first, second, short, long⟩ := sampleTwins_strings
  have inside : id.toNat < 4 := by
    by_contra outside
    have beyond : (start sampleTwins).image.strings.size ≤ id.toNat := Nat.le_of_not_lt outside
    rw [string?, if_pos beyond] at known
    cases known
  have number : id = 0 ∨ id = 1 ∨ id = 2 ∨ id = 3 := by
    simp only [← UInt32.toNat_inj]
    change id.toNat = 0 ∨ id.toNat = 1 ∨ id.toNat = 2 ∨ id.toNat = 3
    omega
  rcases number with rfl | rfl | rfl | rfl
  · cases known.symm.trans first
    simp
  · cases known.symm.trans second
    simp
  · cases known.symm.trans short
    simp
  · cases known.symm.trans long
    simp

-- The first function fits by name and by text, and is counted for neither.
theorem twins_passed_over :
    ∃ func rope, (start sampleTwins).image.function 0 = .ok func ∧ (start sampleTwins).code 0 = .ok rope ∧
      Instruction.decodeBody rope.toBytes = .ok (sampleBody 3) ∧
      Selector.Fits (start sampleTwins) { identifier := some "f" } func (sampleBody 3) ∧
      ¬ Selector.Counts (start sampleTwins) { identifier := some "f" } 0 ∧
      Selector.Fits (start sampleTwins) { strings := ["get"] } func (sampleBody 3) ∧
      ¬ Selector.Counts (start sampleTwins) { strings := ["get"] } 0 := by
  obtain ⟨first, second, short, long⟩ := sampleTwins_strings
  have decoded : Instruction.decodeBody ⟨#[115, 0, 3, 0, 92, 0]⟩ = .ok (sampleBody 3) := by decide +kernel
  have few : sampleTwins.strings.size + (addedBy []).length < 2 ^ 32 := by decide +kernel
  have counts := @counts_iff_picks sampleTwins [] 0 _ (.leaf ⟨#[115, 0, 3, 0, 92, 0]⟩) _ sampleTwins_wellFormed few rfl rfl
    decoded
  refine ⟨_, .leaf ⟨#[115, 0, 3, 0, 92, 0]⟩, rfl, rfl, decoded, ⟨?_, by simp, by simp⟩, ?_, ⟨by simp, by simp, ?_⟩, ?_⟩
  · rintro _ ⟨⟩
    exact second
  · intro counted
    have least := (((counts _).mp counted).named "f" rfl).2 first
    exact absurd least (by decide)
  · intro text listed
    obtain rfl := List.mem_singleton.mp listed
    exact ⟨_, List.mem_cons_self, 1, 3, by decide +kernel, "getter", long, by decide +kernel⟩
  · intro counted
    obtain ⟨here, inside, place, id, held, whole, known, -, shortest⟩ :=
      ((counts _).mp counted).refers "get" (List.mem_singleton.mpr rfl)
    have only : id = 3 := by
      have all : ∀ here ∈ sampleBody 3, ∀ entry ∈ here.insn.references .string, entry.2 = 3 := by decide +kernel
      exact all here inside _ held
    subst only
    cases known.symm.trans long
    rcases shortest 2 "get" short (by decide +kernel) with shorter | ⟨same, -⟩
    · exact absurd shorter (by decide +kernel)
    · exact absurd same (by decide +kernel)

theorem sample_selection :
    Selector.Counts (start sampleTwins) { identifier := some "f", strings := ["get"] } 1 ∧
      ¬ Selector.Counts (start sampleTwins) { identifier := some "f", strings := ["get"] } 0 := by
  obtain ⟨first, second, short, long⟩ := sampleTwins_strings
  have few : sampleTwins.strings.size + (addedBy []).length < 2 ^ 32 := by decide +kernel
  have earlier : Instruction.decodeBody ⟨#[115, 0, 2, 0, 92, 0]⟩ = .ok (sampleBody 2) := by decide +kernel
  have later : Instruction.decodeBody ⟨#[115, 0, 3, 0, 92, 0]⟩ = .ok (sampleBody 3) := by decide +kernel
  constructor
  · refine (@selection_by_least_strings sampleTwins [] 1 _ (.leaf ⟨#[115, 0, 2, 0, 92, 0]⟩) _ sampleTwins_wellFormed few rfl
      rfl earlier _).1.mpr ⟨?_, by simp, ?_⟩
    · rintro _ ⟨⟩
      exact ⟨first, fun id _ => UInt32.le_iff_toNat_le.mpr (Nat.zero_le _)⟩
    · intro text listed
      obtain rfl := List.mem_singleton.mp listed
      refine ⟨_, List.mem_cons_self, 1, 2, by decide +kernel, "get", short, by decide +kernel, ?_⟩
      intro other whole known contains
      have least : ∀ entry ∈ [((0 : UInt32), "f"), (1, "f"), (2, "get"), (3, "getter")], Text.contains entry.2 "get" = true →
          "get".utf8ByteSize < entry.2.utf8ByteSize ∨ "get".utf8ByteSize = entry.2.utf8ByteSize ∧ 2 ≤ entry.1 := by
        decide +kernel
      exact least _ (sampleTwins_only known) contains
  · intro counted
    have picks := (@selection_by_least_strings sampleTwins [] 0 _ (.leaf ⟨#[115, 0, 3, 0, 92, 0]⟩) _ sampleTwins_wellFormed few
      rfl rfl later _).1.mp counted
    exact absurd ((picks.named "f" rfl).2 first) (by decide)

end Session
end CodeImage
