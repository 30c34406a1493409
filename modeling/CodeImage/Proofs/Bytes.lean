import Mathlib.Data.Nat.Bitwise
import Mathlib.Tactic
import CodeImage.Bytes

namespace CodeImage

theorem le_align4 (n : Nat) : n ≤ align4 n := by unfold align4; omega
theorem align4_mod (n : Nat) : align4 n % 4 = 0 := by unfold align4; omega
theorem align4_of_mod {n : Nat} (aligned : n % 4 = 0) : align4 n = n := by unfold align4; omega
theorem align4_align4 (n : Nat) : align4 (align4 n) = align4 n := align4_of_mod (align4_mod n)

theorem byteAt_of_lt {data : ByteArray} {i : Nat} (inside : i < data.size) : byteAt data i = data[i] := by
  simp [byteAt, inside]

theorem byteAt_of_le {data : ByteArray} {i : Nat} (outside : data.size ≤ i) : byteAt data i = 0 := by
  simp [byteAt, Nat.not_lt.mpr outside]

theorem bytes_ext {a b : ByteArray} (size : a.size = b.size)
    (same : ∀ i < a.size, byteAt a i = byteAt b i) : a = b := by
  apply ByteArray.ext_getElem size
  intro i left right
  have equal := same i left
  rwa [byteAt_of_lt left, byteAt_of_lt right] at equal

theorem byteAt_append (a b : ByteArray) (i : Nat) :
    byteAt (a ++ b) i = if i < a.size then byteAt a i else byteAt b (i - a.size) := by
  by_cases left : i < a.size
  · rw [if_pos left, byteAt_of_lt left, byteAt_of_lt (by rw [ByteArray.size_append]; omega),
      ByteArray.getElem_append_left left]
  · rw [if_neg left]
    by_cases right : i - a.size < b.size
    · rw [byteAt_of_lt right, byteAt_of_lt (by rw [ByteArray.size_append]; omega),
        ByteArray.getElem_append_right (by omega)]
    · rw [byteAt_of_le (Nat.le_of_not_lt right), byteAt_of_le]
      rw [ByteArray.size_append]; omega

theorem byteAt_extract (data : ByteArray) (start stop i : Nat) :
    byteAt (data.extract start stop) i = if start + i < stop then byteAt data (start + i) else 0 := by
  by_cases inside : i < (data.extract start stop).size
  · have bounds : start + i < stop ∧ start + i < data.size := by
      rw [ByteArray.size_extract] at inside; omega
    rw [if_pos bounds.1, byteAt_of_lt inside, byteAt_of_lt bounds.2, ByteArray.getElem_extract]
  · rw [byteAt_of_le (Nat.le_of_not_lt inside)]
    split
    · rw [byteAt_of_le]
      rw [ByteArray.size_extract] at inside; omega
    · rfl

@[simp]
theorem zeros_zero : zeros 0 = ByteArray.empty := rfl

theorem byteAt_push (data : ByteArray) (b : UInt8) (i : Nat) :
    byteAt (data.push b) i = if i = data.size then b else byteAt data i := by
  by_cases last : i = data.size
  · subst last
    rw [if_pos rfl, byteAt_of_lt (by simp [ByteArray.size_push])]
    rw [ByteArray.getElem_eq_getElem_data]
    exact Array.getElem_push_eq
  · rw [if_neg last]
    by_cases inside : i < data.size
    · rw [byteAt_of_lt inside, byteAt_of_lt (by rw [ByteArray.size_push]; omega)]
      rw [ByteArray.getElem_eq_getElem_data, ByteArray.getElem_eq_getElem_data]
      exact Array.getElem_push_lt inside
    · rw [byteAt_of_le (Nat.le_of_not_lt inside), byteAt_of_le]
      rw [ByteArray.size_push]; omega

theorem size_set (data : ByteArray) (pos : Nat) (b : UInt8) (inside : pos < data.size) :
    (data.set pos b inside).size = data.size :=
  Array.size_set inside

theorem byteAt_set (data : ByteArray) (pos : Nat) (b : UInt8) (inside : pos < data.size) (i : Nat) :
    byteAt (data.set pos b inside) i = if i = pos then b else byteAt data i := by
  have size := size_set data pos b inside
  by_cases same : i = pos
  · subst same
    rw [if_pos rfl, byteAt_of_lt (by omega)]
    rw [ByteArray.getElem_eq_getElem_data]
    exact Array.getElem_set_self inside
  · rw [if_neg same]
    by_cases within : i < data.size
    · rw [byteAt_of_lt within, byteAt_of_lt (by omega)]
      rw [ByteArray.getElem_eq_getElem_data, ByteArray.getElem_eq_getElem_data]
      exact Array.getElem_set_ne inside within (Ne.symm same)
    · rw [byteAt_of_le (by omega), byteAt_of_le (by omega)]

theorem size_padded (data : ByteArray) : (padded data).size = align4 data.size := by
  have := le_align4 data.size
  rw [padded, ByteArray.size_append, size_zeros]; omega

theorem padded_of_mod {data : ByteArray} (aligned : data.size % 4 = 0) : padded data = data := by
  rw [padded, align4_of_mod aligned, Nat.sub_self, zeros_zero, ByteArray.append_empty]

theorem natAt_congr {a b : ByteArray} {i j : Nat} (width : Nat)
    (same : ∀ k < width, byteAt a (i + k) = byteAt b (j + k)) : natAt a i width = natAt b j width := by
  induction width generalizing i j with
  | zero => rfl
  | succ width ih =>
    have first := same 0 (Nat.zero_lt_succ width)
    have rest : natAt a (i + 1) width = natAt b (j + 1) width := by
      apply ih
      intro k small
      have next := same (k + 1) (Nat.succ_lt_succ small)
      rwa [Nat.add_comm k, ← Nat.add_assoc, ← Nat.add_assoc] at next
    rw [natAt, natAt, rest]
    simp only [Nat.add_zero] at first
    rw [first]

-- The bytes of a number do not depend on what they are appended to.
theorem pushNat_eq_append (out : ByteArray) (width value : Nat) :
    pushNat out width value = out ++ pushNat ByteArray.empty width value := by
  induction width generalizing out value with
  | zero => simp [pushNat]
  | succ width ih =>
    rw [pushNat, ih, pushNat, ih (ByteArray.empty.push value.toUInt8), ← ByteArray.append_assoc]
    congr 1
    rw [← ByteArray.append_toByteArray_singleton, ← ByteArray.append_toByteArray_singleton,
      ByteArray.empty_append]

@[simp]
theorem size_pushNat (out : ByteArray) (width value : Nat) :
    (pushNat out width value).size = out.size + width := by
  induction width generalizing out value with
  | zero => rfl
  | succ width ih => rw [pushNat, ih, ByteArray.size_push]; omega

theorem byteAt_pushNat_of_lt {out : ByteArray} {i : Nat} (width value : Nat) (inside : i < out.size) :
    byteAt (pushNat out width value) i = byteAt out i := by
  rw [pushNat_eq_append, byteAt_append, if_pos inside]

theorem toNat_toUInt8 (value : Nat) : value.toUInt8.toNat = value % 256 := UInt8.toNat_ofNat'

theorem toNat_toUInt32 (value : Nat) : value.toUInt32.toNat = value % 0x100000000 := UInt32.toNat_ofNat'

theorem toNat_toUInt32_of_lt {value : Nat} (small : value < 0x100000000) : value.toUInt32.toNat = value := by
  rw [toNat_toUInt32, Nat.mod_eq_of_lt small]

-- The lowest byte of a number and the rest of it.
theorem mod_succ_width (value width : Nat) :
    value % 256 + 256 * (value / 256 % 256 ^ width) = value % 256 ^ (width + 1) := by
  rw [pow_succ', Nat.mod_mul]

theorem natAt_pushNat (out : ByteArray) (width value : Nat) :
    natAt (pushNat out width value) out.size width = value % 256 ^ width := by
  induction width generalizing out value with
  | zero => simp [natAt, Nat.mod_one]
  | succ width ih =>
    have head : byteAt (pushNat (out.push value.toUInt8) width (value / 256)) out.size = value.toUInt8 := by
      rw [byteAt_pushNat_of_lt _ _ (by rw [ByteArray.size_push]; omega), byteAt_push, if_pos rfl]
    have tail := ih (out.push value.toUInt8) (value / 256)
    rw [ByteArray.size_push] at tail
    rw [natAt, pushNat, head, tail, toNat_toUInt8]
    exact mod_succ_width value width

theorem wordAt_pushWord (out : ByteArray) (value : UInt32) : wordAt (pushWord out value) out.size = value := by
  apply UInt32.toNat_inj.mp
  rw [wordAt, pushWord, natAt_pushNat, toNat_toUInt32]
  have := value.toNat_lt
  omega

@[simp]
theorem size_pushWord (out : ByteArray) (value : UInt32) : (pushWord out value).size = out.size + 4 :=
  size_pushNat out 4 value.toNat

theorem foldl_pushWord_eq_append (out : ByteArray) (words : List UInt32) :
    words.foldl pushWord out = out ++ wordBytes words := by
  induction words generalizing out with
  | nil => simp [wordBytes]
  | cons word rest ih =>
    have split (start : ByteArray) : (word :: rest).foldl pushWord start = pushWord start word ++ wordBytes rest :=
      ih (pushWord start word)
    rw [split, show wordBytes (word :: rest) = pushWord ByteArray.empty word ++ wordBytes rest from split _,
      pushWord, pushNat_eq_append, ByteArray.append_assoc]
    rfl

theorem wordBytes_cons (word : UInt32) (rest : List UInt32) :
    wordBytes (word :: rest) = pushWord ByteArray.empty word ++ wordBytes rest :=
  foldl_pushWord_eq_append (pushWord ByteArray.empty word) rest

@[simp]
theorem size_wordBytes (words : List UInt32) : (wordBytes words).size = 4 * words.length := by
  induction words with
  | nil => rfl
  | cons word rest ih =>
    rw [wordBytes_cons, ByteArray.size_append, size_pushWord, ih, List.length_cons, ByteArray.size_empty]
    omega

@[simp]
theorem size_setNat (data : ByteArray) (pos width value : Nat) : (setNat data pos width value).size = data.size := by
  induction width generalizing data pos value with
  | zero => rfl
  | succ width ih =>
    rw [setNat, ih]
    split
    · exact size_set ..
    · rfl

theorem byteAt_setNat_of_not_mem {data : ByteArray} {pos width value i : Nat} (outside : i < pos ∨ pos + width ≤ i) :
    byteAt (setNat data pos width value) i = byteAt data i := by
  induction width generalizing data pos value with
  | zero => rfl
  | succ width ih =>
    rw [setNat, ih (by omega)]
    split
    · rw [byteAt_set, if_neg (by omega)]
    · rfl

theorem natAt_setNat {data : ByteArray} {pos width : Nat} (value : Nat) (room : pos + width ≤ data.size) :
    natAt (setNat data pos width value) pos width = value % 256 ^ width := by
  induction width generalizing data pos value with
  | zero => simp [natAt, Nat.mod_one]
  | succ width ih =>
    have inside : pos < data.size := by omega
    have size := size_set data pos value.toUInt8 inside
    have head : byteAt (setNat (data.set pos value.toUInt8) (pos + 1) width (value / 256)) pos = value.toUInt8 := by
      rw [byteAt_setNat_of_not_mem (by omega), byteAt_set, if_pos rfl]
    rw [natAt, setNat, dif_pos inside, head, ih (value / 256) (by omega), toNat_toUInt8]
    exact mod_succ_width value width

-- Two words that do not overlap.
theorem natAt_setNat_of_disjoint {data : ByteArray} {pos width value pos' width' : Nat}
    (disjoint : pos' + width' ≤ pos ∨ pos + width ≤ pos') :
    natAt (setNat data pos width value) pos' width' = natAt data pos' width' := by
  apply natAt_congr
  intro k small
  exact byteAt_setNat_of_not_mem (by omega)

-- `part` stands in `data` from `pos` on. A prefix is what stands at zero.
def Holds (data : ByteArray) (pos : Nat) (part : ByteArray) : Prop :=
  pos + part.size ≤ data.size ∧ ∀ i < part.size, byteAt data (pos + i) = byteAt part i

namespace Holds

variable {data part sub a b : ByteArray} {pos q : Nat}

theorem refl (data : ByteArray) : Holds data 0 data := ⟨by omega, fun i _ => by rw [Nat.zero_add]⟩

theorem empty (data : ByteArray) : Holds data data.size ByteArray.empty :=
  ⟨Nat.le_refl _, fun i inside => absurd inside (Nat.not_lt_zero i)⟩

theorem append_left (holds : Holds a pos part) (b : ByteArray) : Holds (a ++ b) pos part := by
  obtain ⟨room, same⟩ := holds
  refine ⟨by rw [ByteArray.size_append]; omega, ?_⟩
  intro i inside
  rw [byteAt_append, if_pos (by omega), same i inside]

theorem append_right (a : ByteArray) (holds : Holds b pos part) : Holds (a ++ b) (a.size + pos) part := by
  obtain ⟨room, same⟩ := holds
  refine ⟨by rw [ByteArray.size_append]; omega, ?_⟩
  intro i inside
  rw [byteAt_append, if_neg (by omega), ← same i inside]
  congr 1
  omega

theorem prefix_append (a b : ByteArray) : Holds (a ++ b) 0 a := (refl a).append_left b

theorem suffix_append (a b : ByteArray) : Holds (a ++ b) a.size b := (refl b).append_right a

theorem trans (outer : Holds data pos part) (inner : Holds part q sub) : Holds data (pos + q) sub := by
  obtain ⟨room, same⟩ := outer
  obtain ⟨innerRoom, innerSame⟩ := inner
  refine ⟨by omega, ?_⟩
  intro i inside
  rw [Nat.add_assoc, same (q + i) (by omega), innerSame i inside]

theorem join (first : Holds data pos a) (second : Holds data (pos + a.size) b) : Holds data pos (a ++ b) := by
  obtain ⟨-, left⟩ := first
  obtain ⟨room, right⟩ := second
  refine ⟨by rw [ByteArray.size_append]; omega, ?_⟩
  intro i inside
  rw [ByteArray.size_append] at inside
  rw [byteAt_append]
  split
  · next small => exact left i small
  · next large =>
    rw [← right (i - a.size) (by omega)]
    congr 1
    omega

theorem inside_front (whole : Holds data 0 part) (inner : Holds part q sub) : Holds data q sub := by
  simpa using whole.trans inner

theorem extract (holds : Holds data pos part) : data.extract pos (pos + part.size) = part := by
  obtain ⟨room, same⟩ := holds
  have size : (data.extract pos (pos + part.size)).size = part.size := by
    rw [ByteArray.size_extract]; omega
  apply bytes_ext size
  intro i inside
  rw [byteAt_extract, if_pos (by omega), same i (by omega)]

theorem of_extract {len : Nat} (room : pos + len ≤ data.size) : Holds data pos (data.extract pos (pos + len)) := by
  have size : (data.extract pos (pos + len)).size = len := by rw [ByteArray.size_extract]; omega
  refine ⟨by omega, ?_⟩
  intro i inside
  rw [byteAt_extract, if_pos (by omega)]

theorem front {stop : Nat} (room : stop ≤ data.size) : Holds data 0 (data.extract 0 stop) := by
  have cut : Holds data 0 (data.extract 0 (0 + stop)) := of_extract (by omega)
  rwa [Nat.zero_add] at cut

theorem natAt {k width : Nat} (holds : Holds data pos part) (room : k + width ≤ part.size) :
    natAt data (pos + k) width = natAt part k width := by
  apply natAt_congr
  intro i small
  rw [Nat.add_assoc]
  exact holds.2 (k + i) (by omega)

theorem wordAt {k : Nat} (holds : Holds data pos part) (room : k + 4 ≤ part.size) :
    wordAt data (pos + k) = wordAt part k := by
  rw [CodeImage.wordAt, CodeImage.wordAt, holds.natAt room]

end Holds

theorem slice?_eq_some_iff {data part : ByteArray} {start len : Nat} :
    slice? data start len = some part ↔ Holds data start part ∧ part.size = len := by
  unfold slice?
  constructor
  · intro found
    split at found
    · next room =>
      cases found
      exact ⟨Holds.of_extract room, by rw [ByteArray.size_extract]; omega⟩
    · cases found
  · rintro ⟨holds, rfl⟩
    rw [if_pos holds.1, holds.extract]

theorem slice?_append {a part : ByteArray} {start len : Nat} (b : ByteArray) (found : slice? a start len = some part) :
    slice? (a ++ b) start len = some part := by
  rw [slice?_eq_some_iff] at found ⊢
  exact ⟨found.1.append_left b, found.2⟩

-- The words of a list stand one after the other.
theorem wordAt_wordBytes {words : List UInt32} {i : Nat} (inside : i < words.length) :
    wordAt (wordBytes words) (4 * i) = words[i] := by
  induction words generalizing i with
  | nil => cases inside
  | cons word rest ih =>
    rw [wordBytes_cons]
    cases i with
    | zero =>
      have first := (Holds.prefix_append (pushWord ByteArray.empty word) (wordBytes rest)).wordAt (k := 0) (by simp)
      rw [Nat.add_zero] at first
      exact first.trans (wordAt_pushWord ByteArray.empty word)
    | succ i =>
      have later := (Holds.suffix_append (pushWord ByteArray.empty word) (wordBytes rest)).wordAt (k := 4 * i)
        (by simp at inside ⊢; omega)
      rw [size_pushWord, ByteArray.size_empty] at later
      rw [show 4 * (i + 1) = 0 + 4 + 4 * i by omega, later, ih (by simpa using inside)]
      rfl

end CodeImage
