import CodeImage.Text.Encoding
import CodeImage.Proofs.Bytes

namespace CodeImage.Text

-- No character is a surrogate.
theorem toNat_cases (c : Char) : c.toNat < 0xD800 ∨ (0xE000 ≤ c.toNat ∧ c.toNat < 0x110000) := by
  rcases c.valid with low | ⟨high, limit⟩
  · exact .inl low
  · exact .inr ⟨high, limit⟩

-- The two bytes of a unit.
def unit (n : Nat) : ByteArray := pushNat ByteArray.empty 2 n

@[simp]
theorem size_unit (n : Nat) : (unit n).size = 2 := size_pushNat ..

theorem unitAt_of_holds {data : ByteArray} {pos n : Nat} (holds : Holds data pos (unit n)) (small : n < 0x10000) :
    unitAt data pos = n := by
  have read := @Holds.natAt _ _ _ 0 2 holds (by simp)
  have stored : natAt (unit n) 0 2 = n % 256 ^ 2 := natAt_pushNat ByteArray.empty 2 n
  rw [Nat.add_zero] at read
  rw [unitAt, read, stored]
  exact Nat.mod_eq_of_lt small

-- The units of a character: its number, or a pair of surrogates.
def units (c : Char) : ByteArray :=
  if c.toNat < 0x10000 then unit c.toNat
  else unit (0xD800 + (c.toNat - 0x10000) / 0x400) ++ unit (0xDC00 + (c.toNat - 0x10000) % 0x400)

theorem size_units (c : Char) : (units c).size = if c.toNat < 0x10000 then 2 else 4 := by
  unfold units
  split
  · exact size_unit _
  · rw [ByteArray.size_append, size_unit, size_unit]

theorem pushUtf16_eq_append (out : ByteArray) (c : Char) : pushUtf16 out c = out ++ units c := by
  unfold pushUtf16 units
  split
  · exact pushNat_eq_append ..
  · simp only
    rw [pushNat_eq_append (pushNat _ _ _), pushNat_eq_append out, ByteArray.append_assoc]
    rfl

theorem foldl_pushUtf16 (out : ByteArray) (cs : List Char) :
    cs.foldl pushUtf16 out = out ++ cs.foldl pushUtf16 ByteArray.empty := by
  induction cs generalizing out with
  | nil => exact ByteArray.append_empty.symm
  | cons c rest ih =>
    rw [List.foldl_cons, List.foldl_cons, ih, ih (pushUtf16 ByteArray.empty c), pushUtf16_eq_append,
      pushUtf16_eq_append, ByteArray.empty_append, ByteArray.append_assoc]

theorem foldl_pushUtf16_cons (c : Char) (cs : List Char) :
    (c :: cs).foldl pushUtf16 ByteArray.empty = units c ++ cs.foldl pushUtf16 ByteArray.empty := by
  rw [List.foldl_cons, foldl_pushUtf16, pushUtf16_eq_append, ByteArray.empty_append]

-- A character is read from its one or two units.
theorem utf16At_of_holds {data : ByteArray} {pos : Nat} {c : Char} (holds : Holds data pos (units c)) :
    utf16At data pos = (c, (units c).size) := by
  have valid := toNat_cases c
  rw [size_units]
  unfold units at holds
  split at holds
  · next basic =>
    rw [utf16At, unitAt_of_holds holds basic, if_pos (by omega), Char.ofNat_toNat, if_pos basic]
  · next pair =>
    have first := unitAt_of_holds (holds.trans (Holds.prefix_append ..)) (by omega)
    have second := unitAt_of_holds (holds.trans (Holds.suffix_append ..)) (by omega)
    rw [Nat.add_zero] at first
    rw [size_unit] at second
    have room := holds.1
    rw [ByteArray.size_append, size_unit, size_unit] at room
    have joined : 0x10000 + (unitAt data pos - 0xD800) * 0x400 + (unitAt data (pos + 2) - 0xDC00) = c.toNat := by
      omega
    rw [utf16At, if_neg (by omega), if_pos (by omega), joined, Char.ofNat_toNat, if_neg pair]

theorem utf16From_of_holds {data : ByteArray} {pos : Nat} {cs : List Char}
    (holds : Holds data pos (cs.foldl pushUtf16 ByteArray.empty))
    (last : data.size = pos + (cs.foldl pushUtf16 ByteArray.empty).size) (text : String) :
    utf16From data pos text = text ++ String.ofList cs := by
  induction cs generalizing pos text with
  | nil =>
    rw [utf16From, if_neg (by simp only [List.foldl_nil, ByteArray.size_empty] at last; omega)]
    simp
  | cons c rest ih =>
    rw [foldl_pushUtf16_cons] at holds last
    rw [ByteArray.size_append] at last
    have here := utf16At_of_holds (holds.trans (Holds.prefix_append ..))
    have later := holds.trans (Holds.suffix_append ..)
    have size := size_units c
    have positive : 2 ≤ (units c).size := by split at size <;> omega
    rw [Nat.add_zero] at here
    rw [utf16From, if_pos (by omega), here]
    simp only [Nat.max_eq_right positive]
    rw [ih later (by omega), String.push_eq_append, String.ofList_cons, String.append_assoc]

theorem toUtf16_eq (text : String) : toUtf16 text = text.toList.foldl pushUtf16 ByteArray.empty :=
  String.foldl_eq_foldl_toList

theorem ofUtf16_toUtf16 (text : String) : ofUtf16 (toUtf16 text) = text := by
  rw [toUtf16_eq, ofUtf16, utf16From_of_holds (Holds.refl _) (by omega)]
  simp

theorem size_toUtf16_even (text : String) : (toUtf16 text).size % 2 = 0 := by
  rw [toUtf16_eq]
  induction text.toList with
  | nil => rfl
  | cons c rest ih =>
    have size := size_units c
    rw [foldl_pushUtf16_cons, ByteArray.size_append]
    split at size <;> omega

-- A fold over bytes is a fold over the list of them.
theorem foldl_bytes {α : Type} (f : α → UInt8 → α) (init : α) (data : ByteArray) :
    data.foldl f init = data.data.toList.foldl f init := by
  have loops (i j : Nat) (a : α) :
      ByteArray.foldlM.loop (m := Id) (fun x y => pure (f x y)) data data.size (Nat.le_refl _) i j a =
        Array.foldlM.loop (m := Id) (fun x y => pure (f x y)) data.data data.size (Nat.le_refl _) i j a := by
    induction i generalizing j a with
    | zero => rw [ByteArray.foldlM.loop, Array.foldlM.loop]
    | succ i ih =>
      rw [ByteArray.foldlM.loop, Array.foldlM.loop]
      split
      · exact ih _ _
      · rfl
  rw [Array.foldl_toList, ByteArray.foldl, ByteArray.foldlM, dif_pos (Nat.le_refl _), Array.foldl, Array.foldlM,
    dif_pos (Nat.le_refl _)]
  exact congrArg Id.run (loops _ _ _)

theorem forall_of_foldl_and {p : UInt8 → Bool} {bytes : List UInt8} {ok : Bool}
    (holds : bytes.foldl (fun ok b => ok && p b) ok = true) : ok = true ∧ ∀ b ∈ bytes, p b = true := by
  induction bytes generalizing ok with
  | nil => exact ⟨holds, fun b member => absurd member List.not_mem_nil⟩
  | cons b rest ih =>
    obtain ⟨first, later⟩ := ih holds
    rw [Bool.and_eq_true] at first
    exact ⟨first.1, List.forall_mem_cons.mpr ⟨first.2, later⟩⟩

theorem byteAt_lt_of_isAscii {text : String} (ascii : isAscii text = true) {i : Nat} (inside : i < text.toUTF8.size) :
    (byteAt text.toUTF8 i).toNat < 0x80 := by
  rw [isAscii, foldl_bytes] at ascii
  have small := (forall_of_foldl_and ascii).2 text.toUTF8[i] (Array.getElem_mem_toList inside)
  rw [byteAt_of_lt inside]
  exact UInt8.lt_iff_toNat_lt.mp (of_decide_eq_true small)

-- A character whose first byte is below 128 takes that byte alone.
theorem utf8EncodeChar_of_lt {c : Char} {b : UInt8} {rest : List UInt8} (bytes : String.utf8EncodeChar c = b :: rest)
    (small : b.toNat < 0x80) : b.toNat = c.toNat ∧ rest = [] := by
  have wide {n : Nat} (high : 0x80 ≤ n % 256) : UInt8.ofNat n ≠ b := by
    rintro rfl
    rw [UInt8.toNat_ofNat'] at small
    omega
  unfold String.utf8EncodeChar at bytes
  simp only at bytes
  split at bytes
  · next one =>
    obtain ⟨rfl, rfl⟩ := List.cons.inj bytes
    refine ⟨?_, rfl⟩
    rw [UInt8.toNat_ofNat']
    exact Nat.mod_eq_of_lt (by omega)
  · split at bytes
    · exact absurd (List.cons.inj bytes).1 (wide (by omega))
    · split at bytes
      · exact absurd (List.cons.inj bytes).1 (wide (by omega))
      · exact absurd (List.cons.inj bytes).1 (wide (by omega))

theorem utf8From_of_holds {data : ByteArray} {pos : Nat} {cs : List Char} (holds : Holds data pos cs.utf8Encode)
    (last : data.size = pos + cs.utf8Encode.size) (ascii : ∀ i < data.size, (byteAt data i).toNat < 0x80)
    (text : String) : utf8From data pos text = text ++ String.ofList cs := by
  induction cs generalizing pos text with
  | nil =>
    rw [utf8From, if_neg (by simp at last; omega)]
    simp
  | cons c rest ih =>
    rw [List.utf8Encode_cons] at holds last
    rw [ByteArray.size_append] at last
    have here := holds.trans (Holds.prefix_append ..)
    have later := holds.trans (Holds.suffix_append ..)
    rw [List.utf8Encode_singleton] at here later last
    obtain ⟨b, others, bytes⟩ := List.exists_cons_of_ne_nil (@String.utf8EncodeChar_ne_nil c)
    rw [bytes] at here later last
    have front : byteAt (b :: others).toByteArray 0 = b := by
      rw [byteAt_of_lt (by simp), List.getElem_toByteArray, List.getElem_cons_zero]
    have first : byteAt data pos = b := (here.2 0 (by simp)).trans front
    have small := ascii pos (by simp at last; omega)
    rw [first] at small
    obtain ⟨number, rfl⟩ := utf8EncodeChar_of_lt bytes small
    have size : ([b].toByteArray).size = 1 := by simp
    rw [size] at later last
    have step : utf8At data pos = (c, 1) := by
      rw [utf8At, first, if_pos small, number, Char.ofNat_toNat]
    rw [utf8From, if_pos (by omega), step]
    simp only [Nat.max_self]
    rw [ih later (by omega), String.push_eq_append, String.ofList_cons, String.append_assoc]

theorem ofUtf8_toUTF8 {text : String} (ascii : isAscii text = true) : ofUtf8 text.toUTF8 = text := by
  have bytes : text.toUTF8 = text.toList.utf8Encode := String.utf8Encode_toList.symm
  have small : ∀ i < text.toUTF8.size, (byteAt text.toUTF8 i).toNat < 0x80 :=
    fun i inside => byteAt_lt_of_isAscii ascii inside
  rw [bytes] at small ⊢
  rw [ofUtf8, utf8From_of_holds (Holds.refl _) (by omega) small]
  simp

end CodeImage.Text
