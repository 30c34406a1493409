import CodeImage.Proofs.Widening

namespace CodeImage.Instruction

-- Instructions one after the other from `start` on.
def locate (start : Nat) : List Instruction → List Located
  | [] => []
  | insn :: rest => insn.placed start :: locate (start + insn.opcode.width) rest

-- The bytes of instructions, one after the other.
def codeOf : List Instruction → ByteArray
  | [] => ByteArray.empty
  | insn :: rest => insn.bytes ++ codeOf rest

theorem map_insn_locate (start : Nat) (insns : List Instruction) : (locate start insns).map Located.insn = insns := by
  induction insns generalizing start with
  | nil => rfl
  | cons insn rest ih => simp [locate, placed, ih]

theorem codeOf_append (first second : List Instruction) : codeOf (first ++ second) = codeOf first ++ codeOf second := by
  induction first with
  | nil => simp [codeOf]
  | cons insn rest ih => simp [codeOf, ih, ByteArray.append_assoc]

section Equations

variable {code : ByteArray} {ip : Nat} {before : List Located}

theorem decodeFrom_of_le (outside : code.size ≤ ip) : decodeFrom code ip before = (before.reverse, none) := by
  rw [decodeFrom, if_neg (Nat.not_lt.mpr outside)]

theorem decodeFrom_of_error {e : ImageError} (inside : ip < code.size) (failed : decodeAt code ip = .error e) :
    decodeFrom code ip before = (before.reverse, some e) := by
  rw [decodeFrom, if_pos inside]
  split
  · next e' failed' =>
    cases failed.symm.trans failed'
    rfl
  · next here done =>
    cases failed.symm.trans done

theorem decodeFrom_of_ok {here : Located} (inside : ip < code.size) (done : decodeAt code ip = .ok here) :
    decodeFrom code ip before = decodeFrom code (ip + here.width) (here :: before) := by
  rw [decodeFrom.eq_def code ip before, if_pos inside]
  split
  · next e failed => cases failed.symm.trans done
  · next here' done' =>
    cases done.symm.trans done'
    rfl

end Equations

-- How decoding ends at a position: with the end of the code, or with what is wrong there.
def Ends (code : ByteArray) (stop : Nat) : Option ImageError → Prop
  | none => stop = code.size
  | some e => stop < code.size ∧ decodeAt code stop = .error e

-- The bytes of instructions stand in the code from `ip` on, and decoding ends after them.
structure Stands (code : ByteArray) (ip : Nat) (insns : List Instruction) (failure : Option ImageError) : Prop where
  stored : ∀ insn ∈ insns, insn.Stored
  holds : Holds code ip (codeOf insns)
  ends : Ends code (ip + (codeOf insns).size) failure

theorem stands_nil {code : ByteArray} {ip : Nat} {failure : Option ImageError} (inside : ip ≤ code.size) :
    Stands code ip [] failure ↔ Ends code ip failure := by
  constructor
  · intro stands
    exact stands.ends
  · intro ends
    exact ⟨by simp, ⟨inside, fun i below => absurd below (Nat.not_lt_zero i)⟩, ends⟩

theorem stands_cons {code : ByteArray} {ip : Nat} {insn : Instruction} {rest : List Instruction}
    {failure : Option ImageError} :
    Stands code ip (insn :: rest) failure ↔
      insn.Stored ∧ Holds code ip insn.bytes ∧ Stands code (ip + insn.opcode.width) rest failure := by
  constructor
  · rintro ⟨stored, holds, ends⟩
    obtain ⟨first, others⟩ := List.forall_mem_cons.mp stored
    rw [codeOf, Holds.append_iff, size_bytes first] at holds
    rw [codeOf, ByteArray.size_append, size_bytes first, ← Nat.add_assoc] at ends
    exact ⟨first, holds.1, others, holds.2, ends⟩
  · rintro ⟨first, here, others, holds, ends⟩
    rw [← size_bytes first] at holds ends
    refine ⟨List.forall_mem_cons.mpr ⟨first, others⟩, Holds.append_iff.mpr ⟨here, holds⟩, ?_⟩
    rw [codeOf, ByteArray.size_append, ← Nat.add_assoc]
    exact ends

theorem lt_of_holds_bytes {code : ByteArray} {ip : Nat} {insn : Instruction} (stored : insn.Stored)
    (holds : Holds code ip insn.bytes) : ip + insn.opcode.width ≤ code.size ∧ ip < code.size := by
  have room := holds.1
  have positive := insn.opcode.width_pos
  rw [size_bytes stored] at room
  omega

-- Decoding finds the instructions that stand in the code.
theorem decodeFrom_of_stands {code : ByteArray} {ip : Nat} {insns : List Instruction} {failure : Option ImageError}
    (stands : Stands code ip insns failure) (before : List Located) :
    decodeFrom code ip before = (before.reverse ++ locate ip insns, failure) := by
  induction insns generalizing ip before with
  | nil =>
    have ends : Ends code ip failure := stands.ends
    rw [locate, List.append_nil]
    cases failure with
    | none => exact decodeFrom_of_le (Nat.le_of_eq ends.symm)
    | some e => exact decodeFrom_of_error ends.1 ends.2
  | cons insn rest ih =>
    obtain ⟨first, here, later⟩ := stands_cons.mp stands
    have done : decodeAt code ip = .ok (insn.placed ip) := decodeAt_exact.mpr ⟨insn, first, here, rfl⟩
    have next : decodeFrom code (ip + (insn.placed ip).width) (insn.placed ip :: before) =
        ((insn.placed ip :: before).reverse ++ locate (ip + insn.opcode.width) rest, failure) := ih later _
    rw [decodeFrom_of_ok (lt_of_holds_bytes first here).2 done, next]
    simp [locate]

-- Whatever the bytes are, some instructions stand there, up to the end or to a place where none does.
theorem exists_stands {code : ByteArray} {ip : Nat} (inside : ip ≤ code.size) :
    ∃ insns failure, Stands code ip insns failure := by
  induction left : code.size - ip using Nat.strongRecOn generalizing ip with
  | ind left ih =>
    by_cases last : ip = code.size
    · exact ⟨[], none, (stands_nil inside).mpr last⟩
    · cases decoded : decodeAt code ip with
      | error e => exact ⟨[], some e, (stands_nil inside).mpr ⟨by omega, decoded⟩⟩
      | ok here =>
        obtain ⟨insn, stored, holds, -⟩ := decodeAt_exact.mp decoded
        have room := (lt_of_holds_bytes stored holds).1
        have positive := insn.opcode.width_pos
        obtain ⟨rest, failure, later⟩ := ih _ (by omega) room rfl
        exact ⟨insn :: rest, failure, stands_cons.mpr ⟨stored, holds, later⟩⟩

theorem decodeAll_exact {code : ByteArray} {found : List Located} {failure : Option ImageError} :
    decodeAll code = (found, failure) ↔ ∃ insns, Stands code 0 insns failure ∧ found = locate 0 insns := by
  obtain ⟨insns, failure', stands⟩ := exists_stands (Nat.zero_le code.size)
  have decoded : decodeAll code = (locate 0 insns, failure') := decodeFrom_of_stands stands []
  constructor
  · intro same
    cases decoded.symm.trans same
    exact ⟨insns, stands, rfl⟩
  · rintro ⟨insns', stands', rfl⟩
    exact decodeFrom_of_stands stands' []

theorem decodeBody_ok_iff {code : ByteArray} {found : List Located} :
    decodeBody code = .ok found ↔ decodeAll code = (found, none) := by
  unfold decodeBody
  rcases decodeAll code with ⟨insns, _ | e⟩
  · simp
  · simp

theorem stands_whole {code : ByteArray} {insns : List Instruction} :
    Stands code 0 insns none ↔ (∀ insn ∈ insns, insn.Stored) ∧ code = codeOf insns := by
  constructor
  · rintro ⟨stored, holds, ends⟩
    have whole : 0 + (codeOf insns).size = code.size := ends
    have cut := holds.extract
    rw [whole, ByteArray.extract_zero_size] at cut
    exact ⟨stored, cut⟩
  · rintro ⟨stored, rfl⟩
    exact ⟨stored, Holds.refl _, Nat.zero_add _⟩

-- Code decodes completely exactly if it is the bytes of instructions.
theorem decodeBody_exact {code : ByteArray} {found : List Located} :
    decodeBody code = .ok found ↔
      ∃ insns : List Instruction, (∀ insn ∈ insns, insn.Stored) ∧ code = codeOf insns ∧ found = locate 0 insns := by
  rw [decodeBody_ok_iff, decodeAll_exact]
  simp only [stands_whole, and_assoc]

-- Encoding gives the bytes of what the instructions become.
theorem foldlM_encodeOnto {insns : List Instruction} {out data : ByteArray} :
    insns.foldlM (fun out insn => (encodeOnto out insn).map (·.1)) out = .ok data ↔
      ∃ forms, List.Forall₂ Emits insns forms ∧ data = out ++ codeOf forms := by
  induction insns generalizing out with
  | nil =>
    rw [List.foldlM_nil, pure_eq_ok]
    constructor
    · intro same
      cases same
      exact ⟨[], .nil, by simp [codeOf]⟩
    · rintro ⟨_, ⟨⟩, rfl⟩
      simp [codeOf]
  | cons insn rest ih =>
    rw [List.foldlM_cons, bind_ok_iff]
    constructor
    · rintro ⟨next, first, later⟩
      obtain ⟨⟨_, opcode⟩, done, rfl⟩ := map_ok_iff.mp first
      obtain ⟨form, emits, -, rfl⟩ := encodeOnto_exact.mp done
      obtain ⟨forms, others, rfl⟩ := ih.mp later
      exact ⟨form :: forms, .cons emits others, by rw [codeOf, ByteArray.append_assoc]⟩
    · rintro ⟨_, emitted, rfl⟩
      cases emitted with
      | @cons _ form _ forms emits others =>
        refine ⟨out ++ form.bytes, ?_, ih.mpr ⟨forms, others, by rw [codeOf, ByteArray.append_assoc]⟩⟩
        exact map_ok_iff.mpr ⟨_, encodeOnto_exact.mpr ⟨form, emits, rfl, rfl⟩, rfl⟩

theorem encodeAll_exact {insns : List Instruction} {data : ByteArray} :
    encodeAll insns = .ok data ↔ ∃ forms, List.Forall₂ Emits insns forms ∧ data = codeOf forms := by
  rw [encodeAll, foldlM_encodeOnto]
  simp only [ByteArray.empty_append]

theorem stored_of_emits {insns forms : List Instruction} (emitted : List.Forall₂ Emits insns forms) :
    ∀ form ∈ forms, form.Stored := by
  intro form member
  obtain ⟨insn, -, emits⟩ := exists_of_forall₂_right emitted form member
  exact emits.stored

-- Instructions follow each other from `start` up to `stop`.
def Consecutive : (start : Nat) → List Located → (stop : Nat) → Prop
  | start, [], stop => start = stop
  | start, here :: rest, stop => here.ip = start ∧ Consecutive here.next rest stop

theorem consecutive_locate {insns : List Instruction} (stored : ∀ insn ∈ insns, insn.Stored) (start : Nat) :
    Consecutive start (locate start insns) (start + (codeOf insns).size) := by
  induction insns generalizing start with
  | nil => rfl
  | cons insn rest ih =>
    obtain ⟨first, others⟩ := List.forall_mem_cons.mp stored
    rw [codeOf, ByteArray.size_append, size_bytes first, ← Nat.add_assoc]
    exact ⟨rfl, ih others _⟩

-- Each instruction is the one that is decoded at its position.
theorem Stands.each {code : ByteArray} {ip : Nat} {insns : List Instruction} {failure : Option ImageError}
    (stands : Stands code ip insns failure) :
    ∀ here ∈ locate ip insns, decodeAt code here.ip = .ok here ∧ here.next ≤ code.size := by
  induction insns generalizing ip with
  | nil =>
    intro here member
    cases member
  | cons insn rest ih =>
    obtain ⟨first, holds, later⟩ := stands_cons.mp stands
    rw [locate, List.forall_mem_cons]
    exact ⟨⟨decodeAt_exact.mpr ⟨insn, first, holds, rfl⟩, (lt_of_holds_bytes first holds).1⟩, ih later⟩

-- Operands are read at their offsets.
theorem readOperands_eq_offsets (code : ByteArray) (ip start : Nat) (kinds : List OperandKind) :
    readOperands code (ip + start) kinds =
      List.zipWith (fun kind offset => kind.read code (ip + offset)) kinds (offsetsFrom start kinds) := by
  induction kinds generalizing start with
  | nil => rfl
  | cons kind kinds ih => rw [readOperands, Nat.add_assoc, ih, offsetsFrom, List.zipWith_cons_cons]

theorem operands_of_decodeAt {code : ByteArray} {ip : Nat} {here : Located} (decoded : decodeAt code ip = .ok here) :
    here.insn.operands = List.zipWith (fun kind offset => kind.read code (ip + offset)) here.insn.opcode.kinds
      here.insn.opcode.offsets := by
  obtain ⟨insn, stored, holds, rfl⟩ := decodeAt_exact.mp decoded
  rw [bytes_eq, Holds.append_iff, ByteArray.size_push, ByteArray.size_empty] at holds
  rw [placed, offsets_eq, ← readOperands_eq_offsets]
  exact (readOperands_of_holds stored holds.2).symm

theorem Emits.length_eq {insn form : Instruction} (emits : insn.Emits form) :
    form.operands.length = insn.operands.length := by
  obtain ⟨-, -, accepts, -⟩ := emits.first
  rw [emits.values, List.length_zipWith, accepts.length_eq, Nat.min_self]

-- What an instruction is read back as: in the form that is written for it, with the values that it had, but for integers
-- that are stored as floats.
def Becomes (insn form : Instruction) : Prop :=
  (∀ out, ∃ next, encodeOnto out insn = .ok (next, form.opcode)) ∧ form.operands.length = insn.operands.length ∧
    form.operands = List.zipWith OperandKind.stored form.opcode.kinds insn.operands

theorem Emits.becomes {insn form : Instruction} (emits : insn.Emits form) : insn.Becomes form :=
  ⟨fun _ => ⟨_, encodeOnto_exact.mpr ⟨form, emits, rfl, rfl⟩⟩, emits.length_eq, emits.values⟩

theorem becomes_locate {insns forms : List Instruction} (emitted : List.Forall₂ Emits insns forms) (start : Nat) :
    List.Forall₂ (fun insn here => insn.Becomes here.insn) insns (locate start forms) := by
  have related : List.Forall₂ Emits insns ((locate start forms).map Located.insn) := by
    rw [map_insn_locate]
    exact emitted
  exact (List.forall₂_map_right_iff.mp related).imp fun insn here emits => emits.becomes

-- Decoding and encoding undo each other.
theorem decoding_inverts_encoding :
    -- From any code instructions are decoded that follow each other from its start, each of them inside the code and with
    -- its operands at their offsets. They reach to the end or to the first position where none can be decoded, which is
    -- told, and they are encoded as the bytes that they were decoded from.
    (∀ code found failure, decodeAll code = (found, failure) → ∃ stop, Consecutive 0 found stop ∧
      (∀ here ∈ found, here.next ≤ code.size ∧ decodeAt code here.ip = .ok here ∧
        here.insn.operands = List.zipWith (fun kind offset => kind.read code (here.ip + offset)) here.insn.opcode.kinds
          here.insn.opcode.offsets) ∧
      Ends code stop failure ∧ encodeAll (found.map Located.insn) = .ok (code.extract 0 stop)) ∧
    -- Code that instructions are encoded as is decoded without an error, and each instruction is read back.
    (∀ insns data, encodeAll insns = .ok data → ∃ found, decodeAll data = (found, none) ∧
      List.Forall₂ (fun insn here => insn.Becomes here.insn) insns found) := by
  constructor
  · intro code found failure decoded
    obtain ⟨insns, stands, rfl⟩ := decodeAll_exact.mp decoded
    have same : List.Forall₂ Emits insns insns :=
      List.forall₂_same.mpr fun insn member => (stands.stored insn member).emits
    refine ⟨0 + (codeOf insns).size, consecutive_locate stands.stored 0, ?_, stands.ends, ?_⟩
    · intro here member
      obtain ⟨decodes, inside⟩ := stands.each here member
      exact ⟨inside, decodes, operands_of_decodeAt decodes⟩
    · rw [map_insn_locate, stands.holds.extract]
      exact encodeAll_exact.mpr ⟨insns, same, rfl⟩
  · intro insns data encoded
    obtain ⟨forms, emitted, rfl⟩ := encodeAll_exact.mp encoded
    have stands := stands_whole.mpr ⟨stored_of_emits emitted, rfl⟩
    exact ⟨locate 0 forms, decodeAll_exact.mpr ⟨forms, stands, rfl⟩, becomes_locate emitted 0⟩

-- A float that is no number, an instruction after it, and a byte that is no code.
def sampleCode : ByteArray := ⟨#[112, 3, 1, 0, 0, 0, 0, 0, 0xf4, 0x7f, 92, 0, 0xf0]⟩

-- A value that needs a wider form, and an integer for a float.
def sampleProgram : List Instruction := [⟨⟨110, by decide⟩, [.int 0, .int (-5)]⟩, ⟨⟨112, by decide⟩, [.int 1, .int 3]⟩]

theorem sample_decoding_inverts :
    (∃ found, decodeAll sampleCode = (found, some (.invalidOpcode 0xf0 12)) ∧ Consecutive 0 found 12 ∧
      encodeAll (found.map Located.insn) = .ok (sampleCode.extract 0 12)) ∧
    ∃ data found, encodeAll sampleProgram = .ok data ∧ decodeAll data = (found, none) ∧ found.length = 2 ∧
      (found.map fun here => here.insn.operands.length) = [2, 2] := by
  obtain ⟨decodes, encodes⟩ := decoding_inverts_encoding
  constructor
  · have decoded : decodeAll sampleCode = ([⟨0, 10, ⟨⟨112, by decide⟩, [.int 3, .float ⟨0x7ff4000000000001⟩]⟩⟩,
        ⟨10, 2, ⟨⟨92, by decide⟩, [.int 0]⟩⟩], some (.invalidOpcode 0xf0 12)) := by decide +kernel
    obtain ⟨stop, consecutive, -, -, same⟩ := decodes _ _ _ decoded
    obtain rfl : 12 = stop := consecutive.2.2
    exact ⟨_, decoded, consecutive, same⟩
  · have encoded : encodeAll sampleProgram =
        .ok ⟨#[111, 0, 0xfb, 0xff, 0xff, 0xff, 112, 1, 0, 0, 0, 0, 0, 0, 8, 0x40]⟩ := by decide +kernel
    obtain ⟨found, decoded, forms⟩ := encodes _ _ encoded
    refine ⟨_, found, encoded, decoded, forms.length_eq.symm, ?_⟩
    cases forms with
    | cons first later =>
      cases later with
      | cons second last =>
        cases last
        simp [first.2.1, second.2.1]

end CodeImage.Instruction
