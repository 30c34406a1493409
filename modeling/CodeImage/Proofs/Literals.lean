import CodeImage.Literal
import CodeImage.Proofs.Checked
import CodeImage.Proofs.Instruction

-- On bytes that no list was written to, reading ends after at most as many runs as values are asked for.

namespace CodeImage

theorem LiteralForm.ofCode_code (form : LiteralForm) : ofCode form.code = form := by
  cases form <;> rfl

theorem LiteralForm.code_lt (form : LiteralForm) : form.code < 8 := by
  cases form <;> decide

namespace Literal

-- The number of a value fits its form, and the form tells the value again.
theorem raw_lt (literal : Literal) : literal.raw < 256 ^ (LiteralForm.ofLiteral literal).valueSize := by
  cases literal with
  | null => decide
  | bool value => cases value <;> decide
  | number x => exact x.bits.toNat_lt
  | integer n => exact n.toNat_lt
  | string id =>
    have bound := id.toNat_lt
    simp only [raw, LiteralForm.ofLiteral]
    split
    · assumption
    · split
      · assumption
      · exact bound

theorem value_raw (literal : Literal) : (LiteralForm.ofLiteral literal).value literal.raw = literal := by
  cases literal with
  | null => rfl
  | bool value => cases value <;> rfl
  | number x => simp [raw, LiteralForm.ofLiteral, LiteralForm.value]
  | integer n => simp [raw, LiteralForm.ofLiteral, LiteralForm.value]
  | string id =>
    simp only [raw, LiteralForm.ofLiteral]
    split
    · simp [LiteralForm.value]
    · split <;> simp [LiteralForm.value]

-- The first bytes of a run, and the bytes of its values.
def tagBytes (form : LiteralForm) (length : Nat) : ByteArray := pushTag ByteArray.empty form length

def valueBytes (form : LiteralForm) : List Literal → ByteArray
  | [] => ByteArray.empty
  | literal :: rest => pushNat ByteArray.empty form.valueSize literal.raw ++ valueBytes form rest

theorem pushTag_eq_append (out : ByteArray) (form : LiteralForm) (length : Nat) :
    pushTag out form length = out ++ tagBytes form length := by
  unfold tagBytes pushTag
  split
  · rw [push_eq_append, push_eq_append out, push_eq_append (ByteArray.empty.push _), ByteArray.append_assoc]
  · exact push_eq_append _ _

theorem foldl_pushNat_eq_append (out : ByteArray) (form : LiteralForm) (literals : List Literal) :
    literals.foldl (fun out l => pushNat out form.valueSize l.raw) out = out ++ valueBytes form literals := by
  induction literals generalizing out with
  | nil => simp [valueBytes]
  | cons literal rest ih =>
    simp only [List.foldl_cons, ih, valueBytes]
    rw [pushNat_eq_append, ByteArray.append_assoc]

-- A run: values of one form, as many as a tag can tell.
structure IsRun (form : LiteralForm) (run : List Literal) : Prop where
  same : ∀ literal ∈ run, LiteralForm.ofLiteral literal = form
  positive : 0 < run.length
  short : run.length ≤ maxRun

theorem isRun_take (first : Literal) (rest : List Literal) :
    IsRun (LiteralForm.ofLiteral first)
      ((first :: rest).take (runLength (LiteralForm.ofLiteral first) (first :: rest))) := by
  have front : (first :: rest).take (runLength (LiteralForm.ofLiteral first) (first :: rest)) =
      ((first :: rest).take maxRun).takeWhile fun l => LiteralForm.ofLiteral l == LiteralForm.ofLiteral first := by
    have inside := (List.takeWhile_prefix (p := fun l => LiteralForm.ofLiteral l == LiteralForm.ofLiteral first)
      (l := (first :: rest).take maxRun)).trans (List.take_prefix maxRun (first :: rest))
    exact (List.prefix_iff_eq_take.mp inside).symm
  rw [front]
  refine ⟨?_, ?_, ?_⟩
  · intro literal member
    simpa using List.all_eq_true.mp List.all_takeWhile literal member
  · simp [maxRun]
  · have cut := (List.takeWhile_prefix (p := fun l => LiteralForm.ofLiteral l == LiteralForm.ofLiteral first)
      (l := (first :: rest).take maxRun)).length_le
    rw [List.length_take] at cut
    omega

theorem encodeOnto_eq_append (out : ByteArray) (literals : List Literal) :
    encodeOnto out literals = out ++ encode literals := by
  induction count : literals.length using Nat.strongRecOn generalizing literals out with
  | ind total ih =>
    cases literals with
    | nil => simp [encode, encodeOnto]
    | cons first rest =>
      have smaller : (rest.drop (runLength (LiteralForm.ofLiteral first) (first :: rest) - 1)).length < total := by
        rw [← count, List.length_drop, List.length_cons]
        omega
      simp only [encode, encodeOnto, foldl_pushNat_eq_append]
      rw [ih _ smaller _ _ rfl, ih _ smaller (_ ++ _) _ rfl, pushTag_eq_append, pushTag_eq_append]
      simp only [ByteArray.append_assoc, ByteArray.empty_append]

-- What stands in the buffer of a list: a run of its first values, and the buffer of the others.
theorem exists_run {literals : List Literal} (nonempty : literals ≠ []) :
    ∃ form run later, IsRun form run ∧ literals = run ++ later ∧
      encode literals = tagBytes form run.length ++ (valueBytes form run ++ encode later) := by
  cases literals with
  | nil => exact absurd rfl nonempty
  | cons first rest =>
    have run := isRun_take first rest
    have length : ((first :: rest).take (runLength (LiteralForm.ofLiteral first) (first :: rest))).length =
        runLength (LiteralForm.ofLiteral first) (first :: rest) := by
      rw [List.length_take, Nat.min_eq_left]
      exact ((List.takeWhile_prefix _).length_le).trans (List.length_take_le' _ _)
    have positive := length ▸ run.positive
    refine ⟨_, _, (first :: rest).drop (runLength (LiteralForm.ofLiteral first) (first :: rest)), run,
      (List.take_append_drop _ _).symm, ?_⟩
    have tail : rest.drop (runLength (LiteralForm.ofLiteral first) (first :: rest) - 1) =
        (first :: rest).drop (runLength (LiteralForm.ofLiteral first) (first :: rest)) := by
      rw [← List.drop_succ_cons (a := first), Nat.sub_add_cancel positive]
    simp only [encode, encodeOnto, foldl_pushNat_eq_append, length, tail]
    rw [encodeOnto_eq_append, encode, pushTag_eq_append]
    simp only [ByteArray.append_assoc, ByteArray.empty_append]

section Reading

variable {buffer : ByteArray} {pos : Nat} {form : LiteralForm}

theorem readTag_of_holds {length : Nat} (short : length ≤ maxRun) (holds : Holds buffer pos (tagBytes form length)) :
    readTag buffer pos = .ok (form, length, pos + (tagBytes form length).size) := by
  have code := form.code_lt
  unfold maxRun at short
  unfold tagBytes pushTag at holds ⊢
  split at holds
  · next long =>
    rw [push_eq_append, Holds.append_iff, Holds.push_iff, Holds.push_iff, ByteArray.size_push, ByteArray.size_empty] at holds
    obtain ⟨⟨inside, first⟩, room, second⟩ := holds
    have high : (byteAt buffer pos).toNat = 0x80 + form.code * 16 + length / 256 := by
      rw [first, toNat_toUInt8]
      omega
    have low : (byteAt buffer (pos + (0 + 1))).toNat = length % 256 := by rw [second, toNat_toUInt8]
    simp only [Nat.zero_add] at low room
    have kind : LiteralForm.ofCode ((0x80 + form.code * 16 + length / 256) / 16) = form := by
      rw [LiteralForm.ofCode, show (0x80 + form.code * 16 + length / 256) / 16 % 8 = form.code % 8 by omega]
      exact form.ofCode_code
    have count : (0x80 + form.code * 16 + length / 256) % 16 * 256 + length % 256 = length := by omega
    have extended : ¬ 0x80 + form.code * 16 + length / 256 < 0x80 := by omega
    simp only [readTag, if_pos inside, high, if_neg extended, if_pos room, low, kind, count, if_pos long,
      ByteArray.size_push, ByteArray.size_empty]
  · next few =>
    obtain ⟨inside, first⟩ := Holds.push_iff.mp holds
    have byte : (byteAt buffer pos).toNat = form.code * 16 + length := by
      rw [first, toNat_toUInt8]
      omega
    have kind : LiteralForm.ofCode ((form.code * 16 + length) / 16) = form := by
      rw [show (form.code * 16 + length) / 16 = form.code by omega]
      exact form.ofCode_code
    have count : (form.code * 16 + length) % 16 = length := by omega
    have plain : form.code * 16 + length < 0x80 := by omega
    simp only [readTag, if_pos inside, byte, if_pos plain, kind, count, if_neg few, ByteArray.size_push,
      ByteArray.size_empty]

theorem readValues_of_holds {values : List Literal} (same : ∀ literal ∈ values, LiteralForm.ofLiteral literal = form)
    (holds : Holds buffer pos (valueBytes form values)) {n : Nat} (enough : n ≤ values.length) (before : List Literal) :
    readValues buffer form n pos before =
      .ok ((values.take n).reverse ++ before, pos + (valueBytes form (values.take n)).size) := by
  induction n generalizing values pos before with
  | zero => simp [readValues, valueBytes]
  | succ n ih =>
    cases values with
    | nil => simp at enough
    | cons literal rest =>
      obtain ⟨kind, others⟩ := List.forall_mem_cons.mp same
      obtain ⟨first, later⟩ := Holds.append_iff.mp holds
      have small := kind ▸ literal.raw_lt
      have room := first.1
      have value := literal.value_raw
      rw [kind] at value
      rw [size_pushNat, ByteArray.size_empty, Nat.zero_add] at later room
      have stored := ih others later (by simpa using enough) (literal :: before)
      simp only [readValues, if_pos room, natAt_of_holds_pushNat small first, value, stored, List.take_succ_cons,
        List.reverse_cons, List.append_assoc, List.singleton_append, valueBytes, ByteArray.size_append, size_pushNat,
        ByteArray.size_empty, Nat.zero_add, Nat.add_assoc]

-- Reading follows the runs: each takes its share of the values that are left, and the last one may be cut short.
theorem readRuns_of_holds {literals : List Literal} (holds : Holds buffer pos (encode literals)) {n : Nat}
    (enough : n ≤ literals.length) (before : List Literal) :
    readRuns buffer pos n before = .ok (before.reverse ++ literals.take n) := by
  induction count : literals.length using Nat.strongRecOn generalizing literals pos n before with
  | ind total ih =>
    by_cases done : n = 0
    · subst done
      simp [readRuns]
    · have nonempty : literals ≠ [] := by
        intro empty
        rw [empty] at enough
        exact done (Nat.le_zero.mp enough)
      obtain ⟨form, run, later, isRun, rfl, bytes⟩ := exists_run nonempty
      rw [bytes, Holds.append_iff, Holds.append_iff] at holds
      obtain ⟨tag, values, rest⟩ := holds
      rw [List.length_append] at enough count
      have positive := isRun.positive
      have read := readValues_of_holds isRun.same values (Nat.min_le_left run.length n) before
      rw [readRuns, if_neg done]
      simp only [readTag_of_holds isRun.short tag, if_neg (Nat.ne_of_gt positive), read]
      by_cases last : n ≤ run.length
      · rw [Nat.min_eq_right last, Nat.sub_self, readRuns, if_pos rfl]
        simp [List.take_append_of_le_length last]
      · have all : run.length ≤ n := by omega
        rw [Nat.min_eq_left all, List.take_length, ih later.length (by omega) rest (by omega) _ rfl]
        simp [List.take_append, List.take_of_length_le all]

-- A number of values is read or none.
theorem length_of_readValues {n next : Nat} {before values : List Literal}
    (read : readValues buffer form n pos before = .ok (values, next)) : values.length = before.length + n := by
  induction n generalizing pos before with
  | zero =>
    cases read
    rfl
  | succ n ih =>
    simp only [readValues] at read
    split at read
    · rw [ih read, List.length_cons]
      omega
    · cases read

theorem length_of_readRuns {left : Nat} {before values : List Literal}
    (read : readRuns buffer pos left before = .ok values) : values.length = before.length + left := by
  fun_induction readRuns buffer pos left before with
  | case1 pos before =>
    cases read
    simp
  | case2 pos left before more e failed => cases read
  | case3 pos left before more form start tag => cases read
  | case4 pos left before more form length start tag counted e failed => cases read
  | case5 pos left before more form length start tag counted next stop done ih =>
    have one := length_of_readValues done
    rw [ih read, one]
    omega

end Reading

-- The same with every byte of a value looked up in the piece of the buffer that holds it, and with a bound on the number
-- of runs. Looking up what is not there and needing another run both end without a result.
def readValue? (form : LiteralForm) (part : ByteArray) : Option Literal :=
  (natAt? part 0 form.valueSize).map fun raw => form.value raw

def readValues? (buffer : ByteArray) (form : LiteralForm) : (n pos : Nat) → List Literal → Checked (List Literal × Nat)
  | 0, pos, before => return (before, pos)
  | n + 1, pos, before =>
    match slice? buffer pos form.valueSize with
    | none => throw (.unexpectedEnd pos form.valueSize buffer.size)
    | some part => do
      let value ← access (readValue? form part)
      readValues? buffer form n (pos + form.valueSize) (value :: before)

def readTag? (buffer : ByteArray) (pos : Nat) : Checked (LiteralForm × Nat × Nat) :=
  match byte? buffer pos with
  | none => throw (.unexpectedEnd pos 1 buffer.size)
  | some first =>
    let form := LiteralForm.ofCode (first.toNat / 16)
    if first.toNat < 0x80 then return (form, first.toNat % 16, pos + 1)
    else
      match byte? buffer (pos + 1) with
      | none => throw (.unexpectedEnd (pos + 1) 1 buffer.size)
      | some second => return (form, first.toNat % 16 * 256 + second.toNat, pos + 2)

def readRuns? (buffer : ByteArray) : (runs pos left : Nat) → List Literal → Checked (List Literal)
  | 0, _, left, before => if left = 0 then return before.reverse else access none
  | runs + 1, pos, left, before =>
    if left = 0 then return before.reverse
    else do
      let (form, length, start) ← readTag? buffer pos
      if length = 0 then throw (.invalidLiteral form.code pos)
      else do
        let (before, next) ← readValues? buffer form (min length left) start before
        readRuns? buffer runs next (left - min length left) before

section Checked

variable (buffer : ByteArray)

theorem readValue?_of_le (form : LiteralForm) {pos : Nat} (room : pos + form.valueSize ≤ buffer.size) :
    readValue? form (buffer.extract pos (pos + form.valueSize)) = some (form.value (natAt buffer pos form.valueSize)) := by
  have size : (buffer.extract pos (pos + form.valueSize)).size = form.valueSize := by
    rw [ByteArray.size_extract]
    omega
  have same : natAt buffer (pos + 0) form.valueSize =
      natAt (buffer.extract pos (pos + form.valueSize)) 0 form.valueSize := (Holds.of_extract room).natAt (by omega)
  rw [Nat.add_zero] at same
  rw [readValue?, natAt?_of_le (by omega), ← same]
  rfl

theorem readValues?_eq (form : LiteralForm) (n pos : Nat) (before : List Literal) :
    readValues? buffer form n pos before = inRange (readValues buffer form n pos before) := by
  induction n generalizing pos before with
  | zero => rfl
  | succ n ih =>
    by_cases room : pos + form.valueSize ≤ buffer.size
    · simp only [readValues?, readValues, slice?_of_le room, if_pos room, readValue?_of_le buffer form room, access_some,
        ok_inRange_bind]
      exact ih _ _
    · simp only [readValues?, readValues, slice?, if_neg room]
      rfl

theorem readTag?_eq (pos : Nat) : readTag? buffer pos = inRange (readTag buffer pos) := by
  by_cases inside : pos < buffer.size
  · simp only [readTag?, readTag, byte?, if_pos inside]
    split
    · rfl
    · by_cases second : pos + 1 < buffer.size
      · simp only [if_pos second]
        rfl
      · simp only [if_neg second]
        rfl
  · simp only [readTag?, readTag, byte?, if_neg inside]
    rfl

-- Every run gives at least one value, so there are never more runs than values.
theorem readRuns?_eq {runs left : Nat} (enough : left ≤ runs) (pos : Nat) (before : List Literal) :
    readRuns? buffer runs pos left before = inRange (readRuns buffer pos left before) := by
  induction runs generalizing pos left before with
  | zero =>
    obtain rfl : left = 0 := Nat.le_zero.mp enough
    rw [readRuns?, readRuns, if_pos rfl, if_pos rfl]
    rfl
  | succ runs ih =>
    rw [readRuns?, readRuns]
    split
    · rfl
    · next more =>
      rw [readTag?_eq]
      cases readTag buffer pos with
      | error e => rfl
      | ok tag =>
        obtain ⟨form, length, start⟩ := tag
        simp only [ok_inRange_bind]
        split
        · rfl
        · next counted =>
          rw [readValues?_eq]
          cases readValues buffer form (min length left) start before with
          | error e => rfl
          | ok result => exact ih (by omega) _ _

end Checked

-- Literal buffers are read back as they were written, and no bytes lead reading astray.
theorem literals_restored :
    -- Whatever stands before and after the buffer of a list, its first values are read from there.
    (∀ (literals : List Literal) (n : Nat) (before after : ByteArray), n ≤ literals.length →
      parse (before ++ encode literals ++ after) before.size n = .ok (literals.take n)) ∧
    -- From any bytes at any position, reading comes to an end after at most as many runs as values are asked for, and
    -- every byte that it looks up is there.
    (∀ (buffer : ByteArray) (offset count : Nat),
      readRuns? buffer count offset count [] = inRange (parse buffer offset count)) ∧
    -- What it gives are as many values as are asked for.
    ∀ (buffer : ByteArray) (offset count : Nat) (values : List Literal),
      parse buffer offset count = .ok values → values.length = count := by
  refine ⟨?_, ?_, ?_⟩
  · intro literals n before after enough
    have holds : Holds (before ++ encode literals ++ after) before.size (encode literals) :=
      (Holds.suffix_append before (encode literals)).append_left after
    exact readRuns_of_holds holds enough []
  · intro buffer offset count
    exact readRuns?_eq buffer (Nat.le_refl count) offset []
  · intro buffer offset count values read
    have length := length_of_readRuns read
    rwa [List.length_nil, Nat.zero_add] at length

-- A run with a long tag, strings of all widths, a number that is no number, and an integer.
def sampleLiterals : List Literal :=
  List.replicate 17 .null ++ [.string 3, .string 255, .string 0x1234, .string 0x10000, .number ⟨0x7ff4000000000001⟩,
    .integer 0xffffffff, .bool true]

theorem sample_literals_restored :
    parse (⟨#[0xff]⟩ ++ encode sampleLiterals ++ ⟨#[0x90]⟩) 1 9 = .ok (List.replicate 9 .null) ∧
      parse (⟨#[0xff]⟩ ++ encode sampleLiterals ++ ⟨#[0x90]⟩) 1 24 = .ok sampleLiterals ∧
      ∃ values, parse ⟨#[0x31, 0, 0, 0x8f, 0xff]⟩ 3 5 = .ok values ∧ values.length = 5 := by
  obtain ⟨restored, -, exact⟩ := literals_restored
  refine ⟨restored sampleLiterals 9 _ _ (by decide), restored sampleLiterals 24 _ _ (by decide), ?_⟩
  have read : parse ⟨#[0x31, 0, 0, 0x8f, 0xff]⟩ 3 5 = .ok (List.replicate 5 .null) := by decide +kernel
  exact ⟨_, read, exact _ _ _ _ read⟩

end Literal
end CodeImage
