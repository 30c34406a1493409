import CodeImage.Instruction
import CodeImage.Proofs.Bytes
import CodeImage.Proofs.Outcome

namespace CodeImage

namespace Holds

variable {data a b : ByteArray} {pos : Nat}

theorem push_iff {byte : UInt8} :
    Holds data pos (ByteArray.empty.push byte) ↔ pos < data.size ∧ byteAt data pos = byte := by
  have first : byteAt (ByteArray.empty.push byte) 0 = byte := byteAt_push ByteArray.empty byte 0
  unfold Holds
  rw [ByteArray.size_push, ByteArray.size_empty]
  constructor
  · rintro ⟨room, same⟩
    exact ⟨room, (same 0 (by omega)).trans first⟩
  · rintro ⟨room, same⟩
    refine ⟨room, ?_⟩
    intro i inside
    obtain rfl : i = 0 := by omega
    rw [first]
    exact same

theorem append_iff : Holds data pos (a ++ b) ↔ Holds data pos a ∧ Holds data (pos + a.size) b := by
  constructor
  · intro holds
    have front := holds.trans (prefix_append a b)
    exact ⟨by simpa using front, holds.trans (suffix_append a b)⟩
  · rintro ⟨front, back⟩
    exact front.join back

end Holds

theorem push_eq_append (out : ByteArray) (byte : UInt8) : out.push byte = out ++ ByteArray.empty.push byte := by
  rw [← ByteArray.append_toByteArray_singleton, ← ByteArray.append_toByteArray_singleton, ByteArray.empty_append]

theorem natAt_lt (data : ByteArray) (pos width : Nat) : natAt data pos width < 256 ^ width := by
  induction width generalizing pos with
  | zero => simp [natAt]
  | succ width ih =>
    have rest := ih (pos + 1)
    have first := (byteAt data pos).toNat_lt
    rw [natAt, pow_succ']
    omega

-- The bytes of the number that stands at a position stand there.
theorem holds_pushNat_natAt {data : ByteArray} {pos width : Nat} (room : pos + width ≤ data.size) :
    Holds data pos (pushNat ByteArray.empty width (natAt data pos width)) := by
  induction width generalizing pos with
  | zero => exact ⟨room, fun i inside => absurd inside (Nat.not_lt_zero i)⟩
  | succ width ih =>
    have first := (byteAt data pos).toNat_lt
    have low : (natAt data pos (width + 1)).toUInt8 = byteAt data pos := by
      apply UInt8.toNat_inj.mp
      rw [toNat_toUInt8, natAt]
      omega
    have high : natAt data pos (width + 1) / 256 = natAt data (pos + 1) width := by
      rw [natAt]
      omega
    rw [pushNat, low, high, pushNat_eq_append, Holds.append_iff, Holds.push_iff, ByteArray.size_push, ByteArray.size_empty]
    exact ⟨⟨by omega, rfl⟩, ih (by omega)⟩

theorem natAt_of_holds_pushNat {data : ByteArray} {pos width value : Nat} (small : value < 256 ^ width)
    (holds : Holds data pos (pushNat ByteArray.empty width value)) : natAt data pos width = value := by
  have same : natAt data (pos + 0) width = natAt (pushNat ByteArray.empty width value) 0 width := holds.natAt (by simp)
  rw [Nat.add_zero] at same
  rw [same]
  exact (natAt_pushNat ByteArray.empty width value).trans (Nat.mod_eq_of_lt small)

namespace OperandKind

-- The value that is read back. Only an integer that is stored as a float comes back as another value.
def stored (kind : OperandKind) (value : Operand) : Operand :=
  if kind = .double then .float value.toBinary64 else value

-- The values that operands of this kind have once they are stored.
def Stores (kind : OperandKind) (value : Operand) : Prop := kind.fits value = true ∧ kind.stored value = value

@[simp]
theorem size_write (kind : OperandKind) (out : ByteArray) (value : Operand) :
    (kind.write out value).size = out.size + kind.width := by
  cases kind <;> simp [write, width]

theorem write_eq_append (kind : OperandKind) (out : ByteArray) (value : Operand) :
    kind.write out value = out ++ kind.write ByteArray.empty value := by
  unfold write
  split
  · exact pushNat_eq_append ..
  · exact pushNat_eq_append ..

theorem write_stored (kind : OperandKind) (out : ByteArray) (value : Operand) :
    kind.write out (kind.stored value) = kind.write out value := by
  by_cases float : kind = .double
  · simp [write, stored, float, Operand.toBinary64]
  · simp [stored, float]

theorem stores_stored {kind : OperandKind} {value : Operand} (fits : kind.fits value = true) :
    kind.Stores (kind.stored value) := by
  by_cases float : kind = .double
  · simp [Stores, stored, OperandKind.fits, float, Operand.toBinary64]
  · simp [Stores, stored, float, fits]

theorem range_pos (kind : OperandKind) : 0 < kind.range := Nat.pow_pos (by decide)

theorem natAt_lt_range (kind : OperandKind) (code : ByteArray) (pos : Nat) : natAt code pos kind.width < kind.range :=
  natAt_lt code pos kind.width

theorem stores_read (kind : OperandKind) (code : ByteArray) (pos : Nat) : kind.Stores (kind.read code pos) := by
  have small := kind.natAt_lt_range code pos
  by_cases float : kind = .double
  · simp [Stores, read, OperandKind.fits, stored, float, Operand.toBinary64]
  · cases signed : kind.isSigned with
    | false =>
      simp [Stores, read, OperandKind.fits, stored, float, signed]
      omega
    | true =>
      have low := Int.le_bmod (x := natAt code pos kind.width) kind.range_pos
      have high := Int.bmod_lt (x := natAt code pos kind.width) kind.range_pos
      simp [Stores, read, OperandKind.fits, stored, float, signed]
      omega

-- Storing what was read stores the number that was there.
theorem write_read (kind : OperandKind) (out code : ByteArray) (pos : Nat) :
    kind.write out (kind.read code pos) = pushNat out kind.width (natAt code pos kind.width) := by
  have small := kind.natAt_lt_range code pos
  by_cases float : kind = .double
  · subst float
    have whole : (natAt code pos 8).toUInt64.toNat = natAt code pos 8 :=
      UInt64.toNat_ofNat'.trans (Nat.mod_eq_of_lt small)
    simp [write, read, width, Operand.toBinary64, whole]
  · have whole : ((natAt code pos kind.width : Int) % kind.range).toNat = natAt code pos kind.width := by
      rw [Int.emod_eq_of_lt (by omega) (by omega), Int.toNat_natCast]
    cases signed : kind.isSigned with
    | false => simp only [write, read, float, signed, Operand.toInt, whole, if_false, Bool.false_eq_true]
    | true => simp only [write, read, float, signed, Operand.toInt, Int.bmod_emod, whole, if_false, if_true]

-- An operand that fits is read where its bytes stand.
theorem read_of_holds {kind : OperandKind} {code : ByteArray} {pos : Nat} {value : Operand}
    (fits : kind.fits value = true) (holds : Holds code pos (kind.write ByteArray.empty value)) :
    kind.read code pos = kind.stored value := by
  by_cases float : kind = .double
  · subst float
    have raw := natAt_of_holds_pushNat value.toBinary64.bits.toNat_lt holds
    simp [read, stored, width, raw]
  · cases value with
    | float x => simp [OperandKind.fits, float] at fits
    | int v =>
      have positive := kind.range_pos
      have rest : (((v % kind.range).toNat : Nat) : Int) = v % kind.range :=
        Int.toNat_of_nonneg (Int.emod_nonneg v (by omega))
      have below : (v % kind.range).toNat < kind.range := by
        have := Int.emod_lt_of_pos v (b := kind.range) (by omega)
        omega
      rw [write, if_neg float] at holds
      have raw := natAt_of_holds_pushNat below holds
      cases signed : kind.isSigned with
      | false =>
        have bounds : 0 ≤ v ∧ v < kind.range := by simpa [OperandKind.fits, float, signed] using fits
        rw [Int.emod_eq_of_lt bounds.1 bounds.2] at raw rest
        simp [read, stored, float, signed, raw, rest]
      | true =>
        have bounds : -kind.range ≤ 2 * v ∧ 2 * v < kind.range := by
          simpa [OperandKind.fits, float, signed] using fits
        have back : v.bmod kind.range = v := Int.bmod_eq_of_le (by omega) (by omega)
        simp [read, stored, float, signed, raw, rest, back]

end OperandKind

namespace Opcode

theorem ofByte?_byte (op : Opcode) : ofByte? op.byte = some op := by
  have small : op.byte.toNat = op.code.val := by
    have := op.code.isLt
    unfold opcodeCount at this
    rw [byte, toNat_toUInt8]
    omega
  rw [ofByte?, ofNat?, small, dif_pos op.code.isLt]

theorem byte_of_ofByte? {byte : UInt8} {op : Opcode} (found : ofByte? byte = some op) : op.byte = byte := by
  unfold ofByte? ofNat? at found
  split at found
  · cases found
    exact UInt8.ofNat_toNat
  · cases found

end Opcode

namespace Instruction

theorem writeOperands_eq_append (out : ByteArray) (kinds : List OperandKind) (values : List Operand) :
    writeOperands out kinds values = out ++ writeOperands ByteArray.empty kinds values := by
  induction kinds generalizing out values with
  | nil => simp [writeOperands]
  | cons kind kinds ih =>
    cases values with
    | nil => simp [writeOperands]
    | cons value values =>
      rw [writeOperands, ih, writeOperands, ih (kind.write ByteArray.empty value), kind.write_eq_append out,
        ByteArray.append_assoc]

theorem writeOperands_cons (kind : OperandKind) (kinds : List OperandKind) (value : Operand) (values : List Operand) :
    writeOperands ByteArray.empty (kind :: kinds) (value :: values) =
      kind.write ByteArray.empty value ++ writeOperands ByteArray.empty kinds values := by
  rw [writeOperands, writeOperands_eq_append]

theorem size_writeOperands {kinds : List OperandKind} {values : List Operand} (count : values.length = kinds.length) :
    (writeOperands ByteArray.empty kinds values).size = total (kinds.map OperandKind.width) := by
  induction kinds generalizing values with
  | nil => simp [writeOperands, total]
  | cons kind kinds ih =>
    cases values with
    | nil => simp at count
    | cons value values =>
      rw [writeOperands_cons, ByteArray.size_append, ih (by simpa using count)]
      simp [total]

-- Operands are read one after the other as they were written.
theorem readOperands_of_holds {code : ByteArray} {pos : Nat} {kinds : List OperandKind} {values : List Operand}
    (stored : List.Forall₂ OperandKind.Stores kinds values)
    (holds : Holds code pos (writeOperands ByteArray.empty kinds values)) : readOperands code pos kinds = values := by
  induction stored generalizing pos with
  | nil => rfl
  | @cons kind value kinds values first _ ih =>
    rw [writeOperands_cons, Holds.append_iff, OperandKind.size_write, ByteArray.size_empty, Nat.zero_add] at holds
    rw [readOperands, ih holds.2, OperandKind.read_of_holds first.1 holds.1, first.2]

theorem stores_readOperands (code : ByteArray) (pos : Nat) (kinds : List OperandKind) :
    List.Forall₂ OperandKind.Stores kinds (readOperands code pos kinds) := by
  induction kinds generalizing pos with
  | nil => exact .nil
  | cons kind kinds ih => exact .cons (kind.stores_read code pos) (ih _)

theorem holds_readOperands {code : ByteArray} {pos : Nat} {kinds : List OperandKind}
    (room : pos + total (kinds.map OperandKind.width) ≤ code.size) :
    Holds code pos (writeOperands ByteArray.empty kinds (readOperands code pos kinds)) := by
  induction kinds generalizing pos with
  | nil => exact ⟨room, fun i inside => absurd inside (Nat.not_lt_zero i)⟩
  | cons kind kinds ih =>
    have split : total ((kind :: kinds).map OperandKind.width) = kind.width + total (kinds.map OperandKind.width) := rfl
    rw [readOperands, writeOperands_cons, Holds.append_iff, OperandKind.size_write, ByteArray.size_empty, Nat.zero_add,
      OperandKind.write_read]
    exact ⟨holds_pushNat_natAt (by omega), ih (by omega)⟩

-- The bytes of an instruction in the form that it names.
def bytes (insn : Instruction) : ByteArray :=
  writeOperands (ByteArray.empty.push insn.opcode.byte) insn.opcode.kinds insn.operands

-- An instruction as it is once it is stored: a value for each operand, none of which storing would change.
def Stored (insn : Instruction) : Prop := List.Forall₂ OperandKind.Stores insn.opcode.kinds insn.operands

-- The instruction at a position.
def placed (insn : Instruction) (ip : Nat) : Located := ⟨ip, insn.opcode.width, insn⟩

theorem bytes_eq (insn : Instruction) :
    insn.bytes = ByteArray.empty.push insn.opcode.byte ++
      writeOperands ByteArray.empty insn.opcode.kinds insn.operands := writeOperands_eq_append ..

theorem size_bytes {insn : Instruction} (stored : insn.Stored) : insn.bytes.size = insn.opcode.width := by
  rw [bytes_eq, ByteArray.size_append, ByteArray.size_push, size_writeOperands stored.length_eq.symm]
  rfl

-- An instruction is decoded exactly where its bytes stand.
theorem decodeAt_exact {code : ByteArray} {ip : Nat} {here : Located} :
    decodeAt code ip = .ok here ↔ ∃ insn : Instruction, insn.Stored ∧ Holds code ip insn.bytes ∧ here = insn.placed ip := by
  constructor
  · intro decoded
    unfold decodeAt at decoded
    split at decoded
    · next inside =>
      split at decoded
      · cases decoded
      · next opcode found =>
        dsimp only at decoded
        split at decoded
        · next room =>
          cases decoded
          refine ⟨⟨opcode, readOperands code (ip + 1) opcode.kinds⟩, stores_readOperands .., ?_, rfl⟩
          have rest : ip + 1 + total (opcode.kinds.map OperandKind.width) ≤ code.size := by
            unfold Opcode.width at room
            omega
          rw [bytes_eq, Holds.append_iff, Holds.push_iff, ByteArray.size_push, ByteArray.size_empty]
          exact ⟨⟨inside, (Opcode.byte_of_ofByte? found).symm⟩, holds_readOperands rest⟩
        · cases decoded
    · cases decoded
  · rintro ⟨insn, stored, holds, rfl⟩
    have room := holds.1
    rw [size_bytes stored] at room
    rw [bytes_eq, Holds.append_iff, Holds.push_iff, ByteArray.size_push, ByteArray.size_empty] at holds
    obtain ⟨⟨inside, byte⟩, operands⟩ := holds
    simp only [decodeAt, inside, byte, Opcode.ofByte?_byte, readOperands_of_holds stored operands, if_true]
    exact if_pos (by omega)

end Instruction
end CodeImage
