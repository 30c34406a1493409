import CodeImage.Patch.Target
import CodeImage.Proofs.Confinement
import CodeImage.Proofs.Decoding

namespace CodeImage

theorem Image.functions_addStrings (image : Image) (texts : List String) :
    (image.addStrings texts).functions = image.functions := by
  induction texts generalizing image with
  | nil => rfl
  | cons text texts ih => exact ih _

namespace Instruction

theorem size_codeOf_append (first second : List Instruction) :
    (codeOf (first ++ second)).size = (codeOf first).size + (codeOf second).size := by
  rw [codeOf_append, ByteArray.size_append]

theorem size_codeOf_le_append (first second : List Instruction) : (codeOf first).size ≤ (codeOf (first ++ second)).size := by
  rw [size_codeOf_append]
  exact Nat.le_add_right _ _

theorem size_codeOf_cons {insn : Instruction} (stored : insn.Stored) (rest : List Instruction) :
    (codeOf (insn :: rest)).size = insn.opcode.width + (codeOf rest).size := by
  rw [codeOf, ByteArray.size_append, size_bytes stored]

theorem locate_append {first : List Instruction} (stored : ∀ insn ∈ first, insn.Stored) (start : Nat)
    (second : List Instruction) :
    locate start (first ++ second) = locate start first ++ locate (start + (codeOf first).size) second := by
  induction first generalizing start with
  | nil => rfl
  | cons insn rest ih =>
    obtain ⟨one, others⟩ := List.forall_mem_cons.mp stored
    rw [List.cons_append, locate, ih others, size_codeOf_cons one, locate, List.cons_append, Nat.add_assoc]

theorem size_codeOf_take_le (insns : List Instruction) {first last : Nat} (ordered : first ≤ last) :
    (codeOf (insns.take first)).size ≤ (codeOf (insns.take last)).size := by
  have split := List.take_append_drop first (insns.take last)
  rw [List.take_take, Nat.min_eq_left ordered] at split
  rw [← split]
  exact size_codeOf_le_append _ _

theorem length_locate (start : Nat) (insns : List Instruction) : (locate start insns).length = insns.length := by
  have same := congrArg List.length (map_insn_locate start insns)
  rwa [List.length_map] at same

-- The bytes of a front of the instructions reach to where the instruction after it stands.
theorem placed_of_locate {insns : List Instruction} (stored : ∀ insn ∈ insns, insn.Stored) {start i : Nat} {here : Located}
    (found : (locate start insns)[i]? = some here) :
    here.ip = start + (codeOf (insns.take i)).size ∧ here.next = start + (codeOf (insns.take (i + 1))).size := by
  induction insns generalizing start i with
  | nil => cases found
  | cons insn rest ih =>
    obtain ⟨one, others⟩ := List.forall_mem_cons.mp stored
    cases i with
    | zero =>
      cases found
      rw [List.take_zero, List.take_succ_cons, size_codeOf_cons one]
      exact ⟨rfl, rfl⟩
    | succ i =>
      obtain ⟨ip, next⟩ := ih others found
      rw [List.take_succ_cons, List.take_succ_cons, size_codeOf_cons one, size_codeOf_cons one, ← Nat.add_assoc,
        ← Nat.add_assoc]
      exact ⟨ip, next⟩

-- An instruction that keeps its distance to the end while the code goes from one size to another.
def Moved (size size' : Nat) (before after : Located) : Prop :=
  after.insn = before.insn ∧ after.width = before.width ∧ after.ip + size = before.ip + size'

theorem moved_locate {size size' start start' : Nat} (shift : start' + size = start + size') (insns : List Instruction) :
    List.Forall₂ (Moved size size') (locate start insns) (locate start' insns) := by
  induction insns generalizing start start' with
  | nil => exact .nil
  | cons insn rest ih =>
    refine .cons ⟨rfl, rfl, shift⟩ (ih ?_)
    omega

-- Instructions `first` up to `last` have given way to others. What stands before them stays where it is, and what stands
-- after them moves with the end of the code.
def Spliced (old : List Located) (first last : Nat) (insns : List Instruction) (size size' : Nat) (new : List Located) :
    Prop :=
  ∃ middle back, new = old.take first ++ middle ++ back ∧
    List.Forall₂ (fun insn here => insn.Becomes here.insn) insns middle ∧
    List.Forall₂ (Moved size size') (old.drop last) back

theorem spliced_locate {front removed back insns forms : List Instruction}
    (stored : ∀ insn ∈ front ++ removed ++ back, insn.Stored) (emitted : List.Forall₂ Emits insns forms) :
    Spliced (locate 0 (front ++ removed ++ back)) front.length (front ++ removed).length insns
      (codeOf (front ++ removed ++ back)).size (codeOf (front ++ forms ++ back)).size
      (locate 0 (front ++ forms ++ back)) := by
  obtain ⟨before, -⟩ := List.forall_mem_append.mp stored
  obtain ⟨frontStored, -⟩ := List.forall_mem_append.mp before
  have after : ∀ insn ∈ front ++ forms, insn.Stored :=
    List.forall_mem_append.mpr ⟨frontStored, stored_of_emits emitted⟩
  refine ⟨locate (0 + (codeOf front).size) forms, locate (0 + (codeOf (front ++ forms)).size) back, ?_,
    becomes_locate emitted _, ?_⟩
  · rw [locate_append after, locate_append frontStored, List.append_assoc front, locate_append frontStored,
      List.take_left' (length_locate 0 front)]
  · rw [locate_append before, List.drop_left' (length_locate 0 _)]
    apply moved_locate
    simp only [size_codeOf_append]
    omega

end Instruction

namespace Session

open Instruction

-- A step keeps edits in order, whatever the image is like.
theorem Orderly.edit {session next : Session} (orderly : session.Orderly) {id : UInt32} {start stop : Nat} {value : Rope}
    (tidy : value.Tidy) (done : session.edit id start stop value = (next, .ok ())) : next.Orderly := by
  obtain ⟨old, known, -, -, rfl⟩ := edit_exact.mp done
  refine ⟨Edits.sorted_put orderly.sorted _ _, ?_, ?_⟩
  · intro edit member
    rcases Edits.mem_put member with rfl | old
    · exact lt_of_code orderly.inside known
    · exact orderly.inside edit old
  · intro edit member
    rcases Edits.mem_put member with rfl | old
    · exact Rope.tidy_replace (orderly.tidy_code known) tidy _ _
    · exact orderly.tidy edit old

-- The code of an edit is the one that a checked replacement gives, as long as there is room for one.
theorem Orderly.edit_within {session next : Session} (orderly : session.Orderly) {id : UInt32} {start stop : Nat}
    {old value : Rope} (known : session.code id = .ok old) (tidy : value.Tidy)
    (done : session.edit id start stop value = (next, .ok ())) (room : old.size + value.size < addressLimit)
    (low : max old.depth value.depth + 2 < Rope.heightLimit) :
    ∃ rope, old.replace? start stop value = some rope ∧ next.code id = .ok rope := by
  obtain ⟨old', known', -, -, rfl⟩ := edit_exact.mp done
  cases known.symm.trans known'
  exact ⟨_, Rope.replace?_of_room (orderly.tidy_code known) tidy room low start stop, by simp [code, Edits.get?_put]⟩

theorem Orderly.outcome {session : Session} (orderly : session.Orderly) {id : UInt32} {done : Done Unit}
    (outcome : EditOutcome session id done) (kept : ∀ next, done = (next, .ok ()) → next.Orderly) : done.1.Orderly := by
  cases outcome with
  | edited known ordered inside => exact kept _ rfl
  | failed e => exact orderly

theorem Orderly.mergeStrings {session : Session} (orderly : session.Orderly) : session.mergeStrings.Orderly := by
  rw [mergeStrings_eq]
  refine ⟨orderly.sorted, ?_, orderly.tidy⟩
  intro edit member
  rw [Image.functions_addStrings]
  exact orderly.inside edit member

theorem Orderly.perform {session : Session} (orderly : session.Orderly) (operation : Operation) :
    (session.perform operation).1.Orderly := by
  cases operation with
  | addString text => exact ⟨orderly.sorted, orderly.inside, orderly.tidy⟩
  | createFunction spec =>
    obtain ⟨sorted, inside, tidy⟩ := orderly.mergeStrings
    cases made : session.mergeStrings.image.addFunction spec with
    | error e =>
      simp only [Session.perform, createFunction, made]
      exact ⟨sorted, inside, tidy⟩
    | ok result =>
      simp only [Session.perform, createFunction, made]
      obtain ⟨-, code, -, -, grown⟩ := Image.addFunction_exact.mp made
      refine ⟨sorted, ?_, tidy⟩
      intro edit member
      have before := inside edit member
      rw [grown, Array.size_push]
      omega
  | replaceBytes id start stop data => exact orderly.outcome (outcome_edit ..) fun _ => orderly.edit (Rope.tidy_leaf data)
  | insertBytes id start data => exact orderly.outcome (outcome_edit ..) fun _ => orderly.edit (Rope.tidy_leaf data)
  | removeBytes id start stop => exact orderly.outcome (outcome_edit ..) fun _ => orderly.edit Rope.tidy_empty
  | replaceInstructions id start stop insns =>
    refine orderly.outcome (outcome_replaceInstructions ..) fun next done => ?_
    obtain ⟨-, data, -, edited⟩ := replaceInstructions_exact.mp done
    exact orderly.edit (Rope.tidy_leaf data) edited

theorem orderly_run (image : Image) (operations : List Operation) : ((start image).run operations).Orderly := by
  induction operations using List.reverseRecOn with
  | nil => exact orderly_start image
  | append_singleton operations operation ih =>
    rw [run_snoc]
    exact ih.perform operation

-- The code of a function is the bytes of instructions.
structure Carries (session : Session) (id : UInt32) (insns : List Instruction) : Prop where
  stored : ∀ insn ∈ insns, insn.Stored
  code : ∃ rope, session.code id = .ok rope ∧ rope.toBytes = codeOf insns

theorem decodeFragment_zero (code : ByteArray) : decodeFragment code 0 = liftImage (decodeBody code) := by
  unfold decodeFragment
  cases decodeBody code with
  | error e => rfl
  | ok insns => simp [Except.map]

theorem decodeBetween_whole {session : Session} {id : UInt32} {rope : Rope} (known : session.code id = .ok rope)
    (sound : rope.Sound) : session.decodeBetween id none none = liftImage (decodeBody rope.toBytes) := by
  have whole : (rope.slice 0 rope.size).toBytes = rope.toBytes := by
    rw [Rope.toBytes_slice sound, ← Rope.size_toBytes sound, ByteArray.extract_zero_size]
  rw [← decodeFragment_zero, ← whole]
  simp [decodeBetween, instructions, checkRange, known, bind, Except.bind, pure, Except.pure]

section Orderly

variable {session : Session} {id : UInt32}

-- What a function decodes to tells its code.
theorem decodeBetween_exact (orderly : session.Orderly) {found : List Located} :
    session.decodeBetween id none none = .ok found ↔ ∃ insns, session.Carries id insns ∧ found = locate 0 insns := by
  constructor
  · intro decoded
    obtain ⟨rope, known, -⟩ := bind_ok_iff.mp decoded
    rw [decodeBetween_whole known (orderly.sound_code known), liftImage_ok_iff] at decoded
    obtain ⟨insns, stored, bytes, rfl⟩ := decodeBody_exact.mp decoded
    exact ⟨insns, ⟨stored, rope, known, bytes⟩, rfl⟩
  · rintro ⟨insns, ⟨stored, rope, known, bytes⟩, rfl⟩
    rw [decodeBetween_whole known (orderly.sound_code known), liftImage_ok_iff]
    exact decodeBody_exact.mpr ⟨insns, stored, bytes, rfl⟩

theorem Carries.codeSize {insns : List Instruction} (carries : session.Carries id insns) (orderly : session.Orderly) :
    session.codeSize id = (codeOf insns).size := by
  obtain ⟨rope, known, bytes⟩ := carries.code
  rw [← bytes, Rope.size_toBytes (orderly.sound_code known), Session.codeSize, known]

theorem Orderly.function (orderly : session.Orderly) {rope : Rope} (known : session.code id = .ok rope) :
    ∃ func, session.image.function id = .ok func :=
  ⟨_, Image.function_ok_iff.mpr (Array.getElem?_eq_getElem (lt_of_code orderly.inside known))⟩

-- Bytes between instructions give way to the bytes of other instructions.
theorem toBytes_replace_code {rope : Rope} (sound : rope.Sound) {front removed back : List Instruction}
    (bytes : rope.toBytes = codeOf (front ++ removed ++ back)) (forms : List Instruction) :
    (rope.replace (codeOf front).size (codeOf (front ++ removed)).size (.leaf (codeOf forms))).toBytes =
      codeOf (front ++ forms ++ back) := by
  have head : rope.toBytes.extract 0 (codeOf front).size = codeOf front := by
    rw [bytes, List.append_assoc, codeOf_append, ByteArray.extract_append_eq_left rfl]
  have tail : rope.toBytes.extract (codeOf (front ++ removed)).size rope.size = codeOf back := by
    rw [← Rope.size_toBytes sound, bytes, codeOf_append (front ++ removed), ByteArray.size_append]
    exact ByteArray.extract_append_eq_right rfl rfl
  have later := Nat.max_eq_left (size_codeOf_le_append front removed)
  rw [Rope.toBytes_replace sound (Rope.sound_leaf _), Rope.toBytes_leaf, later, head, tail, codeOf_append, codeOf_append]

theorem Carries.replace {front removed back insns forms : List Instruction}
    (carries : session.Carries id (front ++ removed ++ back)) (orderly : session.Orderly)
    (emitted : List.Forall₂ Emits insns forms) :
    ∃ next, session.replaceInstructions id (codeOf front).size (codeOf (front ++ removed)).size insns = (next, .ok ()) ∧
      next.Orderly ∧ next.Carries id (front ++ forms ++ back) := by
  obtain ⟨stored, rope, known, bytes⟩ := carries
  have sound := orderly.sound_code known
  have inside : (codeOf (front ++ removed)).size ≤ rope.size := by
    rw [← Rope.size_toBytes sound, bytes]
    exact size_codeOf_le_append _ _
  obtain ⟨next, edited⟩ : ∃ next, session.edit id (codeOf front).size (codeOf (front ++ removed)).size
      (.leaf (codeOf forms)) = (next, .ok ()) := ⟨_, edit_exact.mpr ⟨rope, known, size_codeOf_le_append .., inside, rfl⟩⟩
  refine ⟨next, ?_, orderly.edit (Rope.tidy_leaf _) edited, ?_, ?_⟩
  · have encoded := encodeAll_exact.mpr ⟨forms, emitted, rfl⟩
    exact replaceInstructions_exact.mpr ⟨orderly.function known, _, encoded, edited⟩
  · obtain ⟨before, after⟩ := List.forall_mem_append.mp stored
    obtain ⟨first, -⟩ := List.forall_mem_append.mp before
    exact List.forall_mem_append.mpr ⟨List.forall_mem_append.mpr ⟨first, stored_of_emits emitted⟩, after⟩
  · obtain ⟨old, known', -, -, rfl⟩ := edit_exact.mp edited
    cases known.symm.trans known'
    refine ⟨_, ?_, toBytes_replace_code sound bytes forms⟩
    simp [Session.code, Edits.get?_put]

theorem replaceInstructions_of_error (known : ∃ func, session.image.function id = .ok func) {insns : List Instruction}
    {e : ImageError} (refused : encodeAll insns = .error e) (start stop : Nat) :
    session.replaceInstructions id start stop insns = (session, .error (.image e)) := by
  obtain ⟨func, found⟩ := known
  simp [replaceInstructions, found, refused, liftImage, Except.mapError]

-- What an edit of the instructions `first` up to `last` leads to: the code decodes to the others in their place, or they
-- cannot be encoded and nothing changes.
def Splices (session : Session) (id : UInt32) (found : List Located) (first last : Nat) (insns : List Instruction)
    (done : Done Unit) : Prop :=
  (∀ data, encodeAll insns = .ok data → ∃ next after, done = (next, .ok ()) ∧
    next.decodeBetween id none none = .ok after ∧
    Spliced found first last insns (session.codeSize id) (next.codeSize id) after) ∧
  ∀ e, encodeAll insns = .error e → done = (session, .error (.image e))

theorem Carries.splices {front removed back : List Instruction} (carries : session.Carries id (front ++ removed ++ back))
    (orderly : session.Orderly) (insns : List Instruction) :
    session.Splices id (locate 0 (front ++ removed ++ back)) front.length (front ++ removed).length insns
      (session.replaceInstructions id (codeOf front).size (codeOf (front ++ removed)).size insns) := by
  constructor
  · intro data encoded
    obtain ⟨forms, emitted, -⟩ := encodeAll_exact.mp encoded
    obtain ⟨next, replaced, orderly', carries'⟩ := carries.replace orderly emitted
    refine ⟨next, _, replaced, (decodeBetween_exact orderly').mpr ⟨_, carries', rfl⟩, ?_⟩
    rw [carries.codeSize orderly, carries'.codeSize orderly']
    exact spliced_locate carries.stored emitted
  · intro e refused
    obtain ⟨rope, known, -⟩ := carries.code
    exact replaceInstructions_of_error (orderly.function known) refused _ _

theorem exists_parts {α : Type} {items : List α} {first last : Nat} (ordered : first ≤ last) (inside : last ≤ items.length) :
    ∃ front removed back, items = front ++ removed ++ back ∧ front.length = first ∧ (front ++ removed).length = last := by
  refine ⟨items.take first, (items.drop first).take (last - first), items.drop last, ?_, ?_, ?_⟩
  · rw [← List.take_add, Nat.add_sub_cancel' ordered, List.take_append_drop]
  · exact List.length_take_of_le (Nat.le_trans ordered inside)
  · rw [← List.take_add, Nat.add_sub_cancel' ordered, List.length_take_of_le inside]

-- The same, with the positions that the bounds have among the instructions.
theorem Carries.splices_between {whole : List Instruction} (carries : session.Carries id whole) (orderly : session.Orderly)
    {first last : Nat} (ordered : first ≤ last) (inside : last ≤ whole.length) (insns : List Instruction) :
    session.Splices id (locate 0 whole) first last insns (session.replaceInstructions id (codeOf (whole.take first)).size
      (codeOf (whole.take last)).size insns) := by
  obtain ⟨front, removed, back, rfl, rfl, rfl⟩ := exists_parts ordered inside
  have upToFirst : (front ++ removed ++ back).take front.length = front := by
    rw [List.append_assoc, List.take_left]
  rw [List.take_left, upToFirst]
  exact carries.splices orderly insns

-- Every instruction begins and ends with a front of the code.
theorem Carries.place {whole : List Instruction} (carries : session.Carries id whole) (orderly : session.Orderly) {i : Nat}
    {here : Located} (found : (locate 0 whole)[i]? = some here) :
    here.ip = (codeOf (whole.take i)).size ∧ here.next = (codeOf (whole.take (i + 1))).size ∧
      session.stopOf id here = .ok here.next ∧ i + 1 ≤ whole.length := by
  obtain ⟨ip, next⟩ := placed_of_locate carries.stored found
  rw [Nat.zero_add] at ip next
  have below : i + 1 ≤ whole.length := by
    rw [← length_locate 0 whole]
    exact (List.getElem?_eq_some_iff.mp found).1
  have inside : here.next ≤ session.codeSize id := by
    have upTo := size_codeOf_take_le whole below
    rwa [List.take_length, ← next, ← carries.codeSize orderly] at upTo
  refine ⟨ip, next, ?_, below⟩
  rw [stopOf, if_pos (.inl inside)]

end Orderly

-- A session that operations on some image have led to.
def Reached (session : Session) : Prop := ∃ image operations, session = (start image).run operations

theorem Reached.orderly {session : Session} (reached : session.Reached) : session.Orderly := by
  obtain ⟨image, operations, rfl⟩ := reached
  exact orderly_run image operations

-- Edits act on the instructions that a function decodes to as they act on its bytes.
theorem edits_splice_instructions {session : Session} (reached : session.Reached) {id : UInt32} {found : List Located}
    (decoded : session.decodeBetween id none none = .ok found) (insns : List Instruction) :
    -- Others take the place of the instructions from the first one through the last one.
    (∀ i j first last, i ≤ j → found[i]? = some first → found[j]? = some last →
      session.Splices id found i (j + 1) insns (session.replaceRange id first last insns)) ∧
    -- They take the place of one instruction, or stand before it or after it.
    (∀ i here, found[i]? = some here →
      session.Splices id found i (i + 1) insns (session.replaceOne id here insns) ∧
      session.Splices id found i i insns (session.insertBefore id here insns) ∧
      session.Splices id found (i + 1) (i + 1) insns (session.insertAfter id here insns)) ∧
    -- They take the place of all.
    session.Splices id found 0 found.length insns (session.replaceAll id insns) := by
  have orderly := reached.orderly
  obtain ⟨whole, carries, rfl⟩ := (decodeBetween_exact orderly).mp decoded
  refine ⟨?_, ?_, ?_⟩
  · intro i j first last ordered foundFirst foundLast
    obtain ⟨ip, -⟩ := carries.place orderly foundFirst
    obtain ⟨ip', next, ends, inside⟩ := carries.place orderly foundLast
    have forward : ¬ last.ip < first.ip := by
      rw [ip, ip']
      exact Nat.not_lt.mpr (size_codeOf_take_le whole ordered)
    have same : session.replaceRange id first last insns = session.replaceInstructions id first.ip last.next insns := by
      simp [replaceRange, rangeStop, ends, forward, bind, Except.bind, pure, Except.pure]
    rw [same, ip, next]
    exact carries.splices_between orderly (Nat.le_succ_of_le ordered) inside insns
  · intro i here found
    obtain ⟨ip, next, ends, inside⟩ := carries.place orderly found
    have one : session.replaceOne id here insns = session.replaceInstructions id here.ip here.next insns := by
      rw [replaceOne, ends, given_ok]
    have after : session.insertAfter id here insns = session.replaceInstructions id here.next here.next insns := by
      rw [insertAfter, ends, given_ok]
    rw [one, insertBefore, after, ip, next]
    exact ⟨carries.splices_between orderly (Nat.le_succ i) inside insns,
      carries.splices_between orderly (Nat.le_refl i) (Nat.le_of_succ_le inside) insns,
      carries.splices_between orderly (Nat.le_refl _) inside insns⟩
  · obtain ⟨rope, known, bytes⟩ := carries.code
    have all : session.replaceAll id insns = session.replaceInstructions id 0 rope.size insns := by
      rw [replaceAll, known, given_ok]
    have size : rope.size = (codeOf (whole.take whole.length)).size := by
      rw [List.take_length, ← bytes, Rope.size_toBytes (orderly.sound_code known)]
    rw [all, size, length_locate]
    exact carries.splices_between orderly (Nat.zero_le _) (Nat.le_refl _) insns

-- A function that shares its code and was edited before. Its first two instructions give way to wider ones, and the last
-- one moves.
def sampleEdited : Session := (start sampleShared).run [.insertBytes 0 4 ⟨#[92, 0]⟩]

-- The instruction with this code.
def sampleOpcode (code : UInt8) : Opcode := (Opcode.ofByte? code).getD default

-- A register that there is no form for.
def sampleUnfit : List Instruction := [⟨⟨119, by decide⟩, [.int 256]⟩]

theorem sampleEdited_decodes : ∃ a b c, sampleEdited.decodeBetween 0 none none = .ok [a, b, c] := by
  have decoded : sampleEdited.decodeBetween 0 none none = .ok [⟨0, 2, ⟨⟨118, by decide⟩, [.int 0]⟩⟩,
      ⟨2, 2, ⟨⟨92, by decide⟩, [.int 0]⟩⟩, ⟨4, 2, ⟨⟨92, by decide⟩, [.int 0]⟩⟩] := by decide +kernel
  exact ⟨_, _, _, decoded⟩

theorem sample_edits_splice :
    ∃ a b c, sampleEdited.decodeBetween 0 none none = .ok [a, b, c] ∧
      (∃ next after, sampleEdited.replaceRange 0 a b sampleProgram = (next, .ok ()) ∧
        next.decodeBetween 0 none none = .ok after ∧ after.length = 3 ∧
        Spliced [a, b, c] 0 2 sampleProgram (sampleEdited.codeSize 0) (next.codeSize 0) after) ∧
      (sampleEdited.replaceAll 0 sampleUnfit).1 = sampleEdited := by
  have reached : sampleEdited.Reached := ⟨_, _, rfl⟩
  have encoded : encodeAll sampleProgram =
      .ok ⟨#[111, 0, 0xfb, 0xff, 0xff, 0xff, 112, 1, 0, 0, 0, 0, 0, 0, 8, 0x40]⟩ := by decide +kernel
  have refused : encodeAll sampleUnfit = .error (.operandOutOfRange ⟨119, by decide⟩ 0 (.int 256)) := by decide +kernel
  obtain ⟨a, b, c, decoded⟩ := sampleEdited_decodes
  obtain ⟨range, -, -⟩ := edits_splice_instructions reached decoded sampleProgram
  obtain ⟨-, -, all⟩ := edits_splice_instructions reached decoded sampleUnfit
  obtain ⟨next, after, replaced, decoded', spliced⟩ := (range 0 1 _ _ (by decide) rfl rfl).1 _ encoded
  refine ⟨a, b, c, decoded, ⟨next, after, replaced, decoded', ?_, spliced⟩, by rw [all.2 _ refused]⟩
  obtain ⟨middle, back, rfl, forms, moved⟩ := spliced
  have two : 2 = middle.length := forms.length_eq
  have one : 1 = back.length := moved.length_eq
  simp [← two, ← one]

end Session
end CodeImage
