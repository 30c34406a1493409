import CodeImage.Patch.Target
import CodeImage.Proofs.Splicing

-- A search decodes a part of the code afresh. The part begins and ends between instructions, so it finds there what the
-- whole function decodes to.

namespace CodeImage

-- What a pattern says about an operand, given the strings that texts stand for.
def OperandPattern.Admits (find : String → Option UInt32) : OperandPattern → Operand → Prop
  | .any, _ => True
  | .value wanted, held => wanted.equals held = true
  | .text named, held => ∃ id, find named = some id ∧ held = .int id.toNat

-- What a pattern says about an instruction: its family, and its first operands.
structure Pattern.Describes (find : String → Option UInt32) (pattern : Pattern) (insn : Instruction) : Prop where
  family : insn.opcode.sameFamily pattern.opcode = true
  present : pattern.operands.length ≤ insn.operands.length
  values : ∀ (i : Nat) (wanted : OperandPattern) (value : Operand), pattern.operands[i]? = some wanted →
    insn.operands[i]? = some value → wanted.Admits find value

-- The patterns of a query describe the instructions from `place` on, one after the other.
structure Window (find : String → Option UInt32) (query : List Pattern) (insns : List Located) (place : Nat) : Prop where
  inside : place + query.length ≤ insns.length
  described : ∀ (k : Nat) (pattern : Pattern) (here : Located), query[k]? = some pattern →
    insns[place + k]? = some here → pattern.Describes find here.insn

section Patterns

variable {find : String → Option UInt32}

theorem operandsMatch_iff {wants : List (Option Operand)} {found : List Operand} :
    operandsMatch wants found = true ↔ wants.length ≤ found.length ∧
      ∀ (i : Nat) (want : Option Operand) (value : Operand), wants[i]? = some want → found[i]? = some value →
        (want.all fun wanted => wanted.equals value) = true := by
  induction wants generalizing found with
  | nil => simp [operandsMatch]
  | cons want wants ih =>
    cases found with
    | nil => simp [operandsMatch]
    | cons value rest =>
      rw [operandsMatch, Bool.and_eq_true, ih, List.length_cons, List.length_cons, Nat.succ_le_succ_iff]
      constructor
      · rintro ⟨first, enough, others⟩
        refine ⟨enough, ?_⟩
        intro i want' value' wanted found
        cases i with
        | zero =>
          cases wanted
          cases found
          exact first
        | succ i => exact others i want' value' wanted found
      · rintro ⟨enough, each⟩
        exact ⟨each 0 want value rfl rfl, enough, fun i want' value' wanted found => each (i + 1) want' value' wanted found⟩

theorem admits_of_resolved {wanted : OperandPattern} {want : Option Operand}
    (resolved : Pattern.resolveOperand find wanted = .ok want) (value : Operand) :
    (want.all fun wanted => wanted.equals value) = true ↔ wanted.Admits find value := by
  cases wanted with
  | any =>
    cases resolved
    simp [OperandPattern.Admits]
  | value operand =>
    cases resolved
    simp [OperandPattern.Admits]
  | text text =>
    simp only [Pattern.resolveOperand] at resolved
    cases found : find text with
    | none =>
      rw [found] at resolved
      cases resolved
    | some id =>
      rw [found] at resolved
      cases resolved
      cases value with
      | int v =>
        simp only [Option.all_some, Operand.equals, beq_iff_eq, OperandPattern.Admits, found, Option.some.injEq,
          Operand.int.injEq, exists_eq_left']
        exact eq_comm
      | float x => simp [OperandPattern.Admits, Operand.equals, found]

theorem accepts_iff {pattern : Pattern} {resolved : ResolvedPattern} (done : pattern.resolve find = .ok resolved)
    (insn : Instruction) : resolved.accepts insn = true ↔ pattern.Describes find insn := by
  obtain ⟨operands, each, rfl⟩ := map_ok_iff.mp done
  have related := mapM_ok_iff.mp each
  rw [ResolvedPattern.accepts, Bool.and_eq_true, operandsMatch_iff, ← related.length_eq]
  constructor
  · rintro ⟨family, present, values⟩
    refine ⟨family, present, ?_⟩
    intro i wanted value listed found
    have inside := (List.getElem?_eq_some_iff.mp listed).1
    rw [related.length_eq] at inside
    have here := List.getElem?_eq_getElem inside
    exact (admits_of_resolved (getElem?_of_forall₂ related listed here) value).mp (values i _ value here found)
  · rintro ⟨family, present, values⟩
    refine ⟨family, present, ?_⟩
    intro i want value listed found
    have inside := (List.getElem?_eq_some_iff.mp listed).1
    rw [← related.length_eq] at inside
    have here := List.getElem?_eq_getElem inside
    exact (admits_of_resolved (getElem?_of_forall₂ related here listed) value).mpr (values i _ value here found)

theorem acceptsFront_iff {query : List Pattern} {resolved : List ResolvedPattern}
    (related : List.Forall₂ (fun pattern resolved => pattern.resolve find = .ok resolved) query resolved)
    (insns : List Located) : acceptsFront resolved insns = true ↔ Window find query insns 0 := by
  induction related generalizing insns with
  | nil =>
    simp only [acceptsFront, true_iff]
    exact ⟨by simp, fun k pattern here listed => by cases listed⟩
  | @cons pattern accepted query resolved first _ ih =>
    cases insns with
    | nil =>
      simp only [acceptsFront, Bool.false_eq_true, false_iff]
      intro window
      simpa using window.inside
    | cons here rest =>
      rw [acceptsFront, Bool.and_eq_true, accepts_iff first, ih]
      constructor
      · rintro ⟨described, inside, later⟩
        refine ⟨by simpa using inside, ?_⟩
        intro k pattern' here' listed found
        rw [Nat.zero_add] at found
        cases k with
        | zero =>
          cases listed
          cases found
          exact described
        | succ k => exact later k pattern' here' listed (by rwa [Nat.zero_add])
      · rintro ⟨inside, each⟩
        refine ⟨each 0 pattern here rfl rfl, by simpa using inside, ?_⟩
        intro k pattern' here' listed found
        rw [Nat.zero_add] at found
        exact each (k + 1) pattern' here' listed (by rwa [Nat.zero_add])

-- Windows of a part of a list are windows of the list.
theorem window_drop_iff {query : List Pattern} {insns : List Located} (nonempty : query ≠ []) {skipped place : Nat} :
    Window find query (insns.drop skipped) place ↔ Window find query insns (skipped + place) := by
  have positive := List.length_pos_iff.mpr nonempty
  constructor
  · rintro ⟨inside, each⟩
    rw [List.length_drop] at inside
    refine ⟨by omega, ?_⟩
    intro k pattern here listed found
    exact each k pattern here listed (by rwa [List.getElem?_drop, ← Nat.add_assoc])
  · rintro ⟨inside, each⟩
    refine ⟨by rw [List.length_drop]; omega, ?_⟩
    intro k pattern here listed found
    rw [List.getElem?_drop, ← Nat.add_assoc] at found
    exact each k pattern here listed found

theorem window_take_iff {query : List Pattern} {insns : List Located} {kept place : Nat} (within : kept ≤ insns.length) :
    Window find query (insns.take kept) place ↔ Window find query insns place ∧ place + query.length ≤ kept := by
  constructor
  · rintro ⟨inside, each⟩
    rw [List.length_take_of_le within] at inside
    refine ⟨⟨by omega, ?_⟩, inside⟩
    intro k pattern here listed found
    have below := (List.getElem?_eq_some_iff.mp listed).1
    exact each k pattern here listed (by rwa [List.getElem?_take_of_lt (by omega)])
  · rintro ⟨⟨inside, each⟩, fits⟩
    refine ⟨by rw [List.length_take_of_le within]; exact fits, ?_⟩
    intro k pattern here listed found
    have below := (List.getElem?_eq_some_iff.mp listed).1
    exact each k pattern here listed (by rwa [List.getElem?_take_of_lt (by omega)] at found)

theorem mem_go_iff {resolved : List ResolvedPattern} {insns : List Located} {start place : Nat} :
    place ∈ windows.go resolved start insns ↔
      ∃ k, place = start + k ∧ k < insns.length ∧ acceptsFront resolved (insns.drop k) = true := by
  induction insns generalizing start with
  | nil => simp [windows.go]
  | cons here rest ih =>
    have step : place ∈ windows.go resolved start (here :: rest) ↔
        (place = start ∧ acceptsFront resolved (here :: rest) = true) ∨ place ∈ windows.go resolved (start + 1) rest := by
      rw [windows.go]
      split
      · next accepted => simp [accepted]
      · next refused => simp [refused]
    rw [step, ih]
    constructor
    · rintro (⟨rfl, accepted⟩ | ⟨k, rfl, inside, accepted⟩)
      · exact ⟨0, rfl, by simp, accepted⟩
      · exact ⟨k + 1, by omega, by simpa using inside, accepted⟩
    · rintro ⟨k, rfl, inside, accepted⟩
      cases k with
      | zero => exact .inl ⟨rfl, accepted⟩
      | succ k => exact .inr ⟨k, by omega, by simpa using inside, accepted⟩

theorem pairwise_go (resolved : List ResolvedPattern) (start : Nat) (insns : List Located) :
    (windows.go resolved start insns).Pairwise (· < ·) := by
  induction insns generalizing start with
  | nil => exact .nil
  | cons here rest ih =>
    rw [windows.go]
    split
    · refine .cons ?_ (ih _)
      intro place member
      obtain ⟨k, rfl, -⟩ := mem_go_iff.mp member
      omega
    · exact ih _

-- The places that are listed are those of the windows, from left to right.
theorem windows_exact {query : List Pattern} {resolved : List ResolvedPattern} (nonempty : query ≠ [])
    (related : List.Forall₂ (fun pattern resolved => pattern.resolve find = .ok resolved) query resolved)
    (insns : List Located) :
    (windows resolved insns).Pairwise (· < ·) ∧
      ∀ place, place ∈ windows resolved insns ↔ Window find query insns place := by
  have filled : resolved.isEmpty = false := by
    have positive := List.length_pos_iff.mpr nonempty
    rw [related.length_eq] at positive
    simpa using List.length_pos_iff.mp positive
  rw [windows, filled, if_neg Bool.false_ne_true]
  refine ⟨pairwise_go _ _ _, ?_⟩
  intro place
  simp only [mem_go_iff, acceptsFront_iff related, window_drop_iff nonempty, Nat.zero_add, Nat.add_zero]
  constructor
  · rintro ⟨k, rfl, -, window⟩
    exact window
  · intro window
    have positive := List.length_pos_iff.mpr nonempty
    have inside := window.inside
    exact ⟨place, rfl, by omega, window⟩

end Patterns

namespace Instruction

theorem map_locate (base start : Nat) (insns : List Instruction) :
    (locate start insns).map (fun here => { here with ip := base + here.ip }) = locate (base + start) insns := by
  induction insns generalizing start with
  | nil => rfl
  | cons insn rest ih =>
    rw [locate, List.map_cons, ih, locate, Nat.add_assoc]
    rfl

-- Every instruction takes space, so fronts of the code tell how many instructions they hold.
theorem size_codeOf_take_lt {insns : List Instruction} (stored : ∀ insn ∈ insns, insn.Stored) {first last : Nat}
    (before : first < last) (inside : last ≤ insns.length) :
    (codeOf (insns.take first)).size < (codeOf (insns.take last)).size := by
  have next := size_codeOf_take_le insns (Nat.succ_le_of_lt before)
  have here : first < insns.length := by omega
  have width := (insns[first]).opcode.width_pos
  have split : insns.take (first + 1) = insns.take first ++ [insns[first]] := List.take_succ_eq_append_getElem here
  rw [Nat.succ_eq_add_one, split, size_codeOf_append, size_codeOf_cons (stored _ (List.getElem_mem here))] at next
  omega

theorem size_codeOf_take_le_iff {insns : List Instruction} (stored : ∀ insn ∈ insns, insn.Stored) {first last : Nat}
    (inside : first ≤ insns.length) :
    (codeOf (insns.take first)).size ≤ (codeOf (insns.take last)).size ↔ first ≤ last := by
  constructor
  · intro ordered
    by_contra behind
    have less := size_codeOf_take_lt stored (Nat.lt_of_not_le behind) inside
    omega
  · exact size_codeOf_take_le insns

end Instruction

namespace Session

open Instruction

variable {session : Session} {id : UInt32} {whole : List Instruction}

-- A part of the code that begins and ends between instructions decodes to the instructions of the whole that are in it.
theorem Carries.instructions_between (carries : session.Carries id whole) (orderly : session.Orderly) {first last : Nat}
    (ordered : first ≤ last) (inside : last ≤ whole.length) :
    session.instructions id (codeOf (whole.take first)).size (codeOf (whole.take last)).size =
      .ok (((locate 0 whole).take last).drop first) := by
  obtain ⟨stored, rope, known, bytes⟩ := carries
  have sound := orderly.sound_code known
  obtain ⟨front, middle, back, rfl, rfl, rfl⟩ := exists_parts ordered inside
  obtain ⟨before, -⟩ := List.forall_mem_append.mp stored
  obtain ⟨frontStored, middleStored⟩ := List.forall_mem_append.mp before
  have upToFirst : (front ++ middle ++ back).take front.length = front := by rw [List.append_assoc, List.take_left]
  have room : (codeOf front).size ≤ (codeOf (front ++ middle)).size ∧ (codeOf (front ++ middle)).size ≤ rope.size := by
    rw [← Rope.size_toBytes sound, bytes]
    exact ⟨size_codeOf_le_append _ _, size_codeOf_le_append _ _⟩
  have part : (rope.slice (codeOf front).size (codeOf (front ++ middle)).size).toBytes = codeOf middle := by
    have holds : Holds (codeOf (front ++ middle ++ back)) (codeOf front).size (codeOf middle) := by
      rw [codeOf_append, codeOf_append]
      exact (Holds.suffix_append _ _).append_left _
    rw [Rope.toBytes_slice sound, bytes, size_codeOf_append]
    exact holds.extract
  have decoded : decodeBody (codeOf middle) = .ok (locate 0 middle) := decodeBody_exact.mpr ⟨middle, middleStored, rfl, rfl⟩
  have listed : ((locate 0 (front ++ middle ++ back)).take (front ++ middle).length).drop front.length =
      locate (0 + (codeOf front).size) middle := by
    rw [locate_append before, List.take_left' (length_locate 0 _), locate_append frontStored,
      List.drop_left' (length_locate 0 _)]
  rw [listed, List.take_left, upToFirst, instructions]
  simp only [known, ok_bind, checkRange, if_pos room, part, decodeFragment, decoded, Except.map, map_locate, Nat.add_zero,
    Nat.zero_add]
  rfl

-- The bounds of a search hold the instructions from `low` up to `high`.
structure Bounds (session : Session) (id : UInt32) (whole : List Instruction) (first last : Option Located) (low high : Nat) :
    Prop where
  low_le : low ≤ whole.length
  high_le : high ≤ whole.length
  starts : ∀ bound ∈ first, bound.ip = (codeOf (whole.take low)).size
  stops : ∀ bound ∈ last, bound.next = (codeOf (whole.take high)).size
  low_open : first = none → low = 0
  high_open : last = none → high = whole.length
  decodes : session.decodeBetween id first last =
    session.instructions id (codeOf (whole.take low)).size (codeOf (whole.take high)).size

theorem Carries.bounds (carries : session.Carries id whole) (orderly : session.Orderly) {first last : Option Located}
    (opens : ∀ here ∈ first, here ∈ locate 0 whole) (closes : ∀ here ∈ last, here ∈ locate 0 whole) :
    ∃ low high, session.Bounds id whole first last low high := by
  obtain ⟨rope, known, bytes⟩ := carries.code
  have size : rope.size = (codeOf (whole.take whole.length)).size := by
    rw [List.take_length, ← bytes, Rope.size_toBytes (orderly.sound_code known)]
  have lower : ∃ low, low ≤ whole.length ∧ (∀ bound ∈ first, bound.ip = (codeOf (whole.take low)).size) ∧
      (first = none → low = 0) ∧ (first.map (·.ip)).getD 0 = (codeOf (whole.take low)).size := by
    cases first with
    | none => exact ⟨0, Nat.zero_le _, by simp, fun _ => rfl, rfl⟩
    | some here =>
      obtain ⟨i, found⟩ := List.mem_iff_getElem?.mp (opens here rfl)
      obtain ⟨ip, -, -, inside⟩ := carries.place orderly found
      refine ⟨i, Nat.le_of_succ_le inside, ?_, by simp, ip⟩
      intro bound same
      cases same
      exact ip
  obtain ⟨low, low_le, atFirst, low_open, start⟩ := lower
  cases last with
  | none =>
    refine ⟨low, whole.length, low_le, Nat.le_refl _, atFirst, by simp, low_open, fun _ => rfl, ?_⟩
    simp only [decodeBetween, known, ok_bind, pure_eq_ok, start, ← size]
  | some here =>
    obtain ⟨j, found⟩ := List.mem_iff_getElem?.mp (closes here rfl)
    obtain ⟨-, next, ends, inside⟩ := carries.place orderly found
    refine ⟨low, j + 1, low_le, inside, atFirst, ?_, low_open, by simp, ?_⟩
    · intro bound same
      cases same
      exact next
    · simp only [decodeBetween, known, ok_bind, ends, start, ← next]

end Session

-- A window that begins no earlier than `first` and ends no later than `last`.
structure WindowBetween (find : String → Option UInt32) (query : List Pattern) (insns : List Located)
    (first last : Option Located) (place : Nat) : Prop extends Window find query insns place where
  after : ∀ bound ∈ first, ∀ here, insns[place]? = some here → bound.ip ≤ here.ip
  before : ∀ bound ∈ last, ∀ here, insns[place + query.length - 1]? = some here → here.next ≤ bound.next

namespace Session

open Instruction

variable {session : Session} {id : UInt32} {whole : List Instruction} {query : List Pattern} {first last : Option Located}
  {low high : Nat}

-- Positions in the code compare as places among the instructions do.
theorem Bounds.windowBetween_iff (bounds : session.Bounds id whole first last low high)
    (stored : ∀ insn ∈ whole, insn.Stored) (nonempty : query ≠ []) {find : String → Option UInt32} {place : Nat} :
    WindowBetween find query (locate 0 whole) first last place ↔
      Window find query (locate 0 whole) place ∧ low ≤ place ∧ place + query.length ≤ high := by
  have positive := List.length_pos_iff.mpr nonempty
  constructor
  · intro between
    have inside := between.inside
    refine ⟨between.toWindow, ?_, ?_⟩
    · cases first with
      | none => simp [bounds.low_open rfl]
      | some bound =>
        have here := List.getElem?_eq_getElem (l := locate 0 whole) (i := place) (by omega)
        have ip := (placed_of_locate stored here).1
        have after := between.after bound rfl _ here
        rw [bounds.starts bound rfl, ip, Nat.zero_add, size_codeOf_take_le_iff stored bounds.low_le] at after
        exact after
    · rw [length_locate] at inside
      cases last with
      | none => simpa [bounds.high_open rfl] using inside
      | some bound =>
        have here := List.getElem?_eq_getElem (l := locate 0 whole) (i := place + query.length - 1)
          (by rw [length_locate]; omega)
        have next := (placed_of_locate stored here).2
        have before := between.before bound rfl _ here
        rw [bounds.stops bound rfl, next, Nat.zero_add, size_codeOf_take_le_iff stored (by omega)] at before
        omega
  · rintro ⟨window, above, below⟩
    refine ⟨window, ?_, ?_⟩
    · intro bound same here found
      rw [bounds.starts bound same, (placed_of_locate stored found).1, Nat.zero_add]
      exact size_codeOf_take_le whole above
    · intro bound same here found
      rw [bounds.stops bound same, (placed_of_locate stored found).2, Nat.zero_add]
      exact size_codeOf_take_le whole (by omega)

theorem resolveQuery_ok (texts : ∀ pattern ∈ query, ∀ text, .text text ∈ pattern.operands →
      (session.resolveString? text).isSome = true) :
    ∃ resolved, session.resolveQuery query = .ok resolved ∧
      List.Forall₂ (fun pattern resolved => pattern.resolve session.resolveString? = .ok resolved) query resolved := by
  have each : ∀ pattern ∈ query, ∃ resolved, pattern.resolve session.resolveString? = .ok resolved := by
    intro pattern member
    have operands : ∀ wanted ∈ pattern.operands, ∃ want,
        Pattern.resolveOperand session.resolveString? wanted = .ok want := by
      intro wanted listed
      cases wanted with
      | any => exact ⟨_, rfl⟩
      | value operand => exact ⟨_, rfl⟩
      | text text =>
        obtain ⟨id, found⟩ := Option.isSome_iff_exists.mp (texts pattern member text listed)
        exact ⟨some (.int id.toNat), by simp only [Pattern.resolveOperand, found]⟩
    obtain ⟨wants, done⟩ := exists_mapM_ok operands
    exact ⟨_, map_ok_iff.mpr ⟨wants, done, rfl⟩⟩
  obtain ⟨resolved, done⟩ := exists_mapM_ok each
  exact ⟨resolved, done, mapM_ok_iff.mp done⟩

-- The windows of a part are those of the whole that lie in it, counted from where the part begins.
theorem window_part_iff {find : String → Option UInt32} {insns : List Located} (nonempty : query ≠ [])
    (inside : high ≤ insns.length) {k : Nat} :
    Window find query ((insns.take high).drop low) k ↔
      Window find query insns (low + k) ∧ low ≤ low + k ∧ low + k + query.length ≤ high := by
  rw [window_drop_iff nonempty, window_take_iff inside]
  simp

theorem part_of_part {insns : List Located} {k n : Nat} (fits : low + k + n ≤ high) :
    (((insns.take high).drop low).drop k).take n = (insns.drop (low + k)).take n := by
  rw [List.drop_drop, List.drop_take, List.take_take, Nat.min_eq_left (by omega)]

-- What a search gives, by the windows that it sees.
theorem matchBetween_eq {part : List Located} {resolved : List ResolvedPattern}
    (decoded : session.decodeBetween id first last = .ok part) (resolves : session.resolveQuery query = .ok resolved)
    (same : resolved.length = query.length) (nonempty : query ≠ []) :
    session.matchBetween id first last query =
      match windows resolved part with
      | [] => .error (.matchFailed id query.length)
      | start :: _ => .ok ((part.drop start).take query.length) := by
  have filled : resolved.isEmpty = false := by
    cases resolved with
    | nil => exact absurd (List.length_eq_zero_iff.mp same.symm) nonempty
    | cons _ _ => rfl
  simp only [matchBetween, decoded, resolves, ok_bind, filled, same, Bool.false_eq_true, if_false]
  rfl

theorem matchUnique_eq {insns : List Located} {resolved : List ResolvedPattern}
    (decoded : session.decodeBetween id none none = .ok insns) (resolves : session.resolveQuery query = .ok resolved)
    (same : resolved.length = query.length) :
    session.matchUnique id query =
      match windows resolved insns with
      | [] => .error (.matchFailed id query.length)
      | [start] => .ok ((insns.drop start).take query.length)
      | starts => .error (.notUnique id starts.length) := by
  simp only [matchUnique, decoded, resolves, ok_bind, same]
  rfl

-- Bounds in the wrong order are refused.
theorem Bounds.refuses (bounds : session.Bounds id whole first last low high) {rope : Rope}
    (known : session.code id = .ok rope) {a b : Located} (isFirst : a ∈ first) (isLast : b ∈ last)
    (behind : b.next < a.ip) : session.matchBetween id first last query = .error (.invalidRange a.ip b.next rope.size) := by
  have outside : ¬ (a.ip ≤ b.next ∧ b.next ≤ rope.size) := by omega
  have refused : session.decodeBetween id first last = .error (.invalidRange a.ip b.next rope.size) := by
    rw [bounds.decodes, ← bounds.starts a isFirst, ← bounds.stops b isLast]
    simp only [instructions, known, ok_bind, checkRange, if_neg outside]
    rfl
  simp only [matchBetween, refused]
  rfl

theorem Bounds.ordered (bounds : session.Bounds id whole first last low high) (stored : ∀ insn ∈ whole, insn.Stored)
    (forward : ∀ a ∈ first, ∀ b ∈ last, a.ip ≤ b.next) : low ≤ high := by
  cases first with
  | none => simp [bounds.low_open rfl]
  | some a =>
    cases last with
    | none => simpa [bounds.high_open rfl] using bounds.low_le
    | some b =>
      have before := forward a rfl b rfl
      rwa [bounds.starts a rfl, bounds.stops b rfl, size_codeOf_take_le_iff stored bounds.low_le] at before

-- The windows that a search sees are those of the whole function between its bounds.
theorem Bounds.windows_iff (bounds : session.Bounds id whole first last low high) (stored : ∀ insn ∈ whole, insn.Stored)
    (nonempty : query ≠ []) {find : String → Option UInt32} {place : Nat} :
    WindowBetween find query (locate 0 whole) first last place ↔
      ∃ k, place = low + k ∧ Window find query (((locate 0 whole).take high).drop low) k := by
  have inside : high ≤ (locate 0 whole).length := by
    rw [length_locate]
    exact bounds.high_le
  rw [bounds.windowBetween_iff stored nonempty]
  constructor
  · rintro ⟨window, above, below⟩
    refine ⟨place - low, (Nat.add_sub_cancel' above).symm, ?_⟩
    rw [window_part_iff nonempty inside, Nat.add_sub_cancel' above]
    exact ⟨window, above, below⟩
  · rintro ⟨k, rfl, window⟩
    exact (window_part_iff nonempty inside).mp window

theorem Bounds.leftmost (bounds : session.Bounds id whole first last low high) (carries : session.Carries id whole)
    (orderly : session.Orderly) (ordered : low ≤ high) (nonempty : query ≠ []) {resolved : List ResolvedPattern}
    (resolves : session.resolveQuery query = .ok resolved)
    (related : List.Forall₂ (fun pattern resolved => pattern.resolve session.resolveString? = .ok resolved) query resolved) :
    (∀ place, IsLeast {place | WindowBetween session.resolveString? query (locate 0 whole) first last place} place →
      session.matchBetween id first last query = .ok (((locate 0 whole).drop place).take query.length)) ∧
    ((∀ place, ¬ WindowBetween session.resolveString? query (locate 0 whole) first last place) →
      session.matchBetween id first last query = .error (.matchFailed id query.length)) := by
  have part := bounds.decodes.trans (carries.instructions_between orderly ordered bounds.high_le)
  obtain ⟨sorted, listed⟩ := windows_exact nonempty related (((locate 0 whole).take high).drop low)
  rw [matchBetween_eq part resolves related.length_eq.symm nonempty]
  cases seen : windows resolved (((locate 0 whole).take high).drop low) with
  | nil =>
    rw [seen] at listed
    refine ⟨?_, fun _ => rfl⟩
    intro place least
    obtain ⟨k, -, window⟩ := (bounds.windows_iff carries.stored nonempty).mp least.1
    cases (listed k).mpr window
  | cons start others =>
    rw [seen] at listed sorted
    have window := (listed start).mp List.mem_cons_self
    have found := (bounds.windows_iff carries.stored nonempty).mpr ⟨start, rfl, window⟩
    refine ⟨?_, fun none => absurd found (none _)⟩
    intro place least
    -- The place is leftmost in the whole, the start of the list in the part.
    obtain ⟨k, rfl, window'⟩ := (bounds.windows_iff carries.stored nonempty).mp least.1
    have later : start ≤ k := by
      rcases List.mem_cons.mp ((listed k).mpr window') with same | member
      · exact Nat.le_of_eq same.symm
      · exact Nat.le_of_lt (List.rel_of_pairwise_cons sorted member)
    have earlier : low + k ≤ low + start := least.2 found
    obtain rfl : k = start := by omega
    have below := ((bounds.windowBetween_iff carries.stored nonempty).mp found).2.2
    exact congrArg Except.ok (part_of_part below)

-- A search finds the leftmost window.
theorem queries_find_leftmost {session : Session} (reached : session.Reached) {id : UInt32} {rope : Rope}
    {insns : List Located} (known : session.code id = .ok rope) (decoded : decodeBody rope.toBytes = .ok insns)
    {query : List Pattern} (nonempty : query ≠ [])
    (texts : ∀ pattern ∈ query, ∀ text, .text text ∈ pattern.operands → (session.resolveString? text).isSome = true) :
    (∀ first last : Option Located, (∀ here ∈ first, here ∈ insns) → (∀ here ∈ last, here ∈ insns) →
      -- The first bound must not begin after the last one ends.
      (∀ a ∈ first, ∀ b ∈ last, b.next < a.ip →
        session.matchBetween id first last query = .error (.invalidRange a.ip b.next rope.size)) ∧
      -- Between the bounds the leftmost window is found, if there is one.
      ((∀ a ∈ first, ∀ b ∈ last, a.ip ≤ b.next) →
        (∀ place, IsLeast {place | WindowBetween session.resolveString? query insns first last place} place →
          session.matchBetween id first last query = .ok ((insns.drop place).take query.length)) ∧
        ((∀ place, ¬ WindowBetween session.resolveString? query insns first last place) →
          session.matchBetween id first last query = .error (.matchFailed id query.length)))) ∧
    -- All windows of the function are listed once, and the only one is found.
    ∃ places : List Nat, places.Pairwise (· < ·) ∧
      (∀ place, place ∈ places ↔ Window session.resolveString? query insns place) ∧
      (places = [] → session.matchUnique id query = .error (.matchFailed id query.length)) ∧
      (∀ place, places = [place] → session.matchUnique id query = .ok ((insns.drop place).take query.length)) ∧
      (1 < places.length → session.matchUnique id query = .error (.notUnique id places.length)) := by
  have orderly := reached.orderly
  obtain ⟨whole, stored, bytes, rfl⟩ := decodeBody_exact.mp decoded
  have carries : session.Carries id whole := ⟨stored, rope, known, bytes⟩
  obtain ⟨resolved, resolves, related⟩ := resolveQuery_ok texts
  constructor
  · intro first last opens closes
    obtain ⟨low, high, bounds⟩ := carries.bounds orderly opens closes
    constructor
    · intro a isFirst b isLast behind
      exact bounds.refuses known isFirst isLast behind
    · intro forward
      exact bounds.leftmost carries orderly (bounds.ordered stored forward) nonempty resolves related
  · have all : session.decodeBetween id none none = .ok (locate 0 whole) :=
      (decodeBetween_exact orderly).mpr ⟨whole, carries, rfl⟩
    have unique := matchUnique_eq all resolves related.length_eq.symm
    obtain ⟨sorted, listed⟩ := windows_exact nonempty related (locate 0 whole)
    refine ⟨_, sorted, listed, ?_, ?_, ?_⟩
    · intro none
      rw [unique, none]
    · intro place one
      rw [unique, one]
    · intro several
      rw [unique]
      split
      · next none => simp [none] at several
      · next one => simp [one] at several
      · rfl

-- Three instructions of one family that load a string, and two windows that overlap.
def sampleLoads : Session :=
  (start sampleShared).run [.addString "get",
    .replaceBytes 0 0 4 ⟨#[115, 1, 0, 0, 116, 1, 0, 0, 0, 0, 115, 2, 0, 0, 92, 0]⟩]

def sampleQuery : List Pattern := [⟨sampleOpcode 115, [.any, .text "ge"]⟩, ⟨sampleOpcode 115, [.any]⟩]

def sampleLocated : List Located :=
  [⟨0, 4, ⟨sampleOpcode 115, [.int 1, .int 0]⟩⟩, ⟨4, 6, ⟨sampleOpcode 116, [.int 1, .int 0]⟩⟩,
    ⟨10, 4, ⟨sampleOpcode 115, [.int 2, .int 0]⟩⟩, ⟨14, 2, ⟨sampleOpcode 92, [.int 0]⟩⟩]

theorem sampleLoads_decodes :
    ∃ rope, sampleLoads.code 0 = .ok rope ∧ decodeBody rope.toBytes = .ok sampleLocated ∧ rope.size = 16 := by
  have code : (sampleLoads.code 0).toOption.map (fun rope => (rope.toBytes, rope.size)) =
      some (⟨#[115, 1, 0, 0, 116, 1, 0, 0, 0, 0, 115, 2, 0, 0, 92, 0]⟩, 16) := by decide +kernel
  cases known : sampleLoads.code 0 with
  | error e =>
    rw [known] at code
    cases code
  | ok rope =>
    rw [known] at code
    simp only [Except.toOption, Option.map_some, Option.some.injEq, Prod.mk.injEq] at code
    have decoded : decodeBody ⟨#[115, 1, 0, 0, 116, 1, 0, 0, 0, 0, 115, 2, 0, 0, 92, 0]⟩ = .ok sampleLocated := by
      decide +kernel
    exact ⟨rope, rfl, by rw [code.1, decoded], code.2⟩

theorem sampleLoads_resolves : sampleLoads.resolveString? "ge" = some 0 := by decide +kernel

-- The second window begins with the wide form of the first pattern's instruction.
theorem sampleQuery_windows (place : Nat) :
    Window sampleLoads.resolveString? sampleQuery sampleLocated place ↔ place = 0 ∨ place = 1 := by
  have first : Pattern.resolve sampleLoads.resolveString? ⟨sampleOpcode 115, [.any, .text "ge"]⟩ =
      .ok ⟨sampleOpcode 115, [none, some (.int 0)]⟩ := by
    simp [Pattern.resolve, Pattern.resolveOperand, sampleLoads_resolves]
    rfl
  have second : Pattern.resolve sampleLoads.resolveString? ⟨sampleOpcode 115, [.any]⟩ =
      .ok ⟨sampleOpcode 115, [none]⟩ := rfl
  have listed := (windows_exact (by decide) (.cons first (.cons second .nil)) sampleLocated).2 place
  have seen : windows [⟨sampleOpcode 115, [none, some (.int 0)]⟩, ⟨sampleOpcode 115, [none]⟩] sampleLocated =
      [0, 1] := by decide +kernel
  rw [seen] at listed
  simpa [sampleQuery] using listed.symm

theorem sample_leftmost :
    sampleLoads.matchBetween 0 sampleLocated[2]? sampleLocated[0]? sampleQuery = .error (.invalidRange 10 4 16) ∧
    sampleLoads.matchBetween 0 sampleLocated[1]? sampleLocated[2]? sampleQuery = .ok ((sampleLocated.drop 1).take 2) ∧
    sampleLoads.matchBetween 0 sampleLocated[2]? none sampleQuery = .error (.matchFailed 0 2) ∧
    sampleLoads.matchUnique 0 sampleQuery = .error (.notUnique 0 2) := by
  obtain ⟨rope, known, decoded, size⟩ := sampleLoads_decodes
  have texts : ∀ pattern ∈ sampleQuery, ∀ text, .text text ∈ pattern.operands →
      (sampleLoads.resolveString? text).isSome = true := by
    simp [sampleQuery, sampleLoads_resolves]
  have reached : sampleLoads.Reached := ⟨_, _, rfl⟩
  have nonempty : sampleQuery ≠ [] := by decide
  obtain ⟨between, places, sorted, listed, -, -, several⟩ := queries_find_leftmost reached known decoded nonempty texts
  refine ⟨?_, ?_, ?_, ?_⟩
  · have refused := (between sampleLocated[2]? sampleLocated[0]? (by decide) (by decide)).1 _ rfl _ rfl (by decide)
    rw [refused, size]
    rfl
  · refine ((between sampleLocated[1]? sampleLocated[2]? (by decide) (by decide)).2 (by decide)).1 1 ⟨?_, ?_⟩
    · refine ⟨(sampleQuery_windows 1).mpr (.inr rfl), ?_, ?_⟩
      · decide
      · decide
    · intro place window
      rcases (sampleQuery_windows place).mp window.toWindow with rfl | rfl
      · have after := window.after _ rfl _ rfl
        exact absurd after (by decide)
      · exact Nat.le_refl 1
  · refine ((between sampleLocated[2]? none (by decide) (by decide)).2 (by decide)).2 ?_
    intro place window
    rcases (sampleQuery_windows place).mp window.toWindow with rfl | rfl
    · exact absurd (window.after _ rfl _ rfl) (by decide)
    · exact absurd (window.after _ rfl _ rfl) (by decide)
  · have two : places = [0, 1] := by
      refine List.Perm.eq_of_pairwise' sorted (by decide) ?_
      refine (List.perm_ext_iff_of_nodup sorted.nodup (by decide)).mpr ?_
      intro place
      rw [listed, sampleQuery_windows]
      simp
    rw [several (by simp [two]), two]
    rfl

end Session
end CodeImage
