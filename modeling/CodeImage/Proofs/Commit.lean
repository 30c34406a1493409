import CodeImage.Patch.Session
import CodeImage.Proofs.Parsed
import CodeImage.Proofs.Rope

namespace CodeImage

namespace Edits

variable {edits : Edits} {id other : UInt32} {rope : Rope}

-- Function numbers ascend, so each has one edit at most.
def Sorted (edits : Edits) : Prop := edits.Pairwise fun a b => a.1 < b.1

@[simp]
theorem get?_nil (id : UInt32) : get? [] id = none := rfl

@[simp]
theorem get?_cons (edit : UInt32 × Rope) (rest : Edits) (id : UInt32) :
    get? (edit :: rest) id = if edit.1 = id then some edit.2 else get? rest id := by
  by_cases here : edit.1 = id
  · simp [get?, here]
  · simp [get?, here]

theorem get?_put (edits : Edits) (id : UInt32) (rope : Rope) (other : UInt32) :
    (edits.put id rope).get? other = if id = other then some rope else edits.get? other := by
  induction edits with
  | nil => simp [put]
  | cons edit rest ih =>
    unfold put
    split
    · simp
    · split
      · next same =>
        simp only [get?_cons, ← same]
        split <;> rfl
      · next apart =>
        simp only [get?_cons, ih]
        by_cases here : edit.1 = other
        · subst here
          simp [apart]
        · simp [here]

theorem mem_put {edit : UInt32 × Rope} (member : edit ∈ edits.put id rope) : edit = (id, rope) ∨ edit ∈ edits := by
  induction edits with
  | nil => simpa [put] using member
  | cons first rest ih =>
    unfold put at member
    split at member
    · simpa using member
    · split at member
      · rcases List.mem_cons.mp member with here | later
        · exact .inl here
        · exact .inr (List.mem_cons_of_mem _ later)
      · rcases List.mem_cons.mp member with here | later
        · exact .inr (List.mem_cons.mpr (.inl here))
        · exact (ih later).imp_right (List.mem_cons_of_mem _)

theorem sorted_put (sorted : edits.Sorted) (id : UInt32) (rope : Rope) : Sorted (edits.put id rope) := by
  induction edits with
  | nil => exact List.pairwise_singleton ..
  | cons first rest ih =>
    obtain ⟨above, restSorted⟩ := List.pairwise_cons.mp sorted
    unfold put
    split
    · next smaller =>
      refine List.pairwise_cons.mpr ⟨?_, sorted⟩
      intro edit member
      rcases List.mem_cons.mp member with rfl | later
      · exact smaller
      · exact UInt32.lt_trans smaller (above edit later)
    · split
      · next same =>
        refine List.pairwise_cons.mpr ⟨?_, restSorted⟩
        intro edit later
        rw [same]
        exact above edit later
      · next notSmaller apart =>
        refine List.pairwise_cons.mpr ⟨?_, ih restSorted⟩
        intro edit member
        rcases mem_put member with rfl | later
        · exact UInt32.lt_of_le_of_ne (UInt32.not_lt.mp notSmaller) (Ne.symm apart)
        · exact above edit later

theorem mem_of_get? (found : edits.get? id = some rope) : (id, rope) ∈ edits := by
  obtain ⟨edit, here, rfl⟩ := Option.map_eq_some_iff.mp found
  have same : edit.1 = id := by simpa using List.find?_some here
  rw [← same]
  exact List.mem_of_find?_eq_some here

theorem get?_of_mem (sorted : edits.Sorted) (member : (id, rope) ∈ edits) : edits.get? id = some rope := by
  induction edits with
  | nil => cases member
  | cons first rest ih =>
    obtain ⟨above, restSorted⟩ := List.pairwise_cons.mp sorted
    rcases List.mem_cons.mp member with rfl | later
    · simp
    · have apart : first.1 ≠ id := UInt32.ne_of_lt (above _ later)
      rw [get?_cons, if_neg apart]
      exact ih restSorted later

end Edits

-- The new code of a function, in a body of its own.
def Func.withCode (func : Func) (body : UInt32) (size : Nat) : Func :=
  { func with body, header := { func.header with codeSize := size.toUInt32 } }

namespace Session

-- What committing edits does to an image.
structure Committed (image : Image) (edits : Edits) (next : Image) : Prop where
  others : next = { image with functions := next.functions, bodies := next.bodies }
  size : next.functions.size = image.functions.size
  count : next.bodies.size = image.bodies.size + edits.length
  bodies : ∀ i, i < image.bodies.size → next.bodies[i]? = image.bodies[i]?
  kept : ∀ i : Nat, (∀ edit ∈ edits, edit.1.toNat ≠ i) → next.functions[i]? = image.functions[i]?
  edited : ∀ k id rope func, edits[k]? = some (id, rope) → image.functions[id.toNat]? = some func →
    next.functions[id.toNat]? =
      some (func.withCode (image.bodies.size + k).toUInt32 (Rope.toBytes rope).size) ∧
    next.bodies[image.bodies.size + k]? =
      some ⟨Rope.toBytes rope, image.bodies[func.body.toNat]?.bind Body.jumpTables⟩

theorem commitEdit_eq (image : Image) (id : UInt32) (rope : Rope) :
    commitEdit image (id, rope) = { image with
      functions := image.functions.modify id.toNat fun func =>
        func.withCode image.bodies.size.toUInt32 rope.toBytes.size
      bodies := image.bodies.push ⟨rope.toBytes, (image.bodyOf id).toOption.bind Body.jumpTables⟩ } := rfl

theorem jumpTables_bodyOf {image : Image} {id : UInt32} {func : Func} (found : image.functions[id.toNat]? = some func) :
    (image.bodyOf id).toOption.bind Body.jumpTables = image.bodies[func.body.toNat]?.bind Body.jumpTables := by
  simp only [Image.bodyOf, Image.function, found]
  cases image.bodies[func.body.toNat]? with
  | none => rfl
  | some body => rfl

-- A function of an image with one edit committed.
theorem getElem?_commitEdit (image : Image) (id : UInt32) (rope : Rope) (i : Nat) :
    (commitEdit image (id, rope)).functions[i]? = if id.toNat = i then
      image.functions[i]?.map fun func => func.withCode image.bodies.size.toUInt32 rope.toBytes.size
      else image.functions[i]? := by
  rw [commitEdit_eq, Array.getElem?_modify]

theorem bodies_commitEdit {image : Image} (inside : ∀ func ∈ image.functions, func.body.toNat < image.bodies.size)
    (edit : UInt32 × Rope) :
    ∀ func ∈ (commitEdit image edit).functions, func.body.toNat < (commitEdit image edit).bodies.size := by
  intro func member
  have size : (commitEdit image edit).bodies.size = image.bodies.size + 1 := Array.size_push _
  obtain ⟨i, found⟩ := Array.mem_iff_getElem?.mp member
  rw [getElem?_commitEdit] at found
  split at found
  · obtain ⟨old, -, rfl⟩ := Option.map_eq_some_iff.mp found
    have cut : image.bodies.size.toUInt32.toNat ≤ image.bodies.size := by
      rw [toNat_toUInt32]
      exact Nat.mod_le _ _
    simp only [Func.withCode]
    omega
  · have old := inside func (Array.mem_of_getElem? found)
    omega

theorem committed_foldl {image : Image} {edits : Edits} (sorted : edits.Sorted)
    (inside : ∀ func ∈ image.functions, func.body.toNat < image.bodies.size) :
    Committed image edits (edits.foldl commitEdit image) := by
  induction edits generalizing image with
  | nil => exact ⟨rfl, rfl, rfl, fun _ _ => rfl, fun _ _ => rfl, fun _ _ _ _ missing => by cases missing⟩
  | cons edit rest ih =>
    obtain ⟨id, rope⟩ := edit
    obtain ⟨above, restSorted⟩ := List.pairwise_cons.mp sorted
    have apart : ∀ edit ∈ rest, edit.1.toNat ≠ id.toNat := by
      intro edit member same
      have larger := UInt32.lt_iff_toNat_lt.mp (above edit member)
      exact absurd same (Nat.ne_of_gt larger)
    have later := ih restSorted (bodies_commitEdit inside (id, rope))
    have size : (commitEdit image (id, rope)).bodies.size = image.bodies.size + 1 := Array.size_push _
    rw [List.foldl_cons]
    refine ⟨?_, ?_, ?_, ?_, ?_, ?_⟩
    · rw [later.others]
      rfl
    · rw [later.size, commitEdit_eq, Array.size_modify]
    · rw [later.count, size, List.length_cons]
      omega
    · intro i old
      rw [later.bodies i (by omega), commitEdit_eq, Array.getElem?_push_lt old, Array.getElem?_eq_getElem old]
    · intro i untouched
      rw [later.kept i (fun edit member => untouched edit (List.mem_cons_of_mem _ member)), getElem?_commitEdit,
        if_neg (untouched (id, rope) List.mem_cons_self)]
    · intro k other otherRope func found known
      cases k with
      | zero =>
        -- The first edit makes the body, and the later ones concern other functions and other bodies.
        cases found
        have first := getElem?_commitEdit image id rope id.toNat
        rw [if_pos rfl, known, Option.map_some] at first
        constructor
        · rw [later.kept id.toNat apart, first]
          rfl
        · rw [Nat.add_zero, later.bodies _ (by omega), commitEdit_eq, Array.getElem?_push_size, jumpTables_bodyOf known]
      | succ k =>
        rw [List.getElem?_cons_succ] at found
        have away : id.toNat ≠ other.toNat := (apart _ (List.mem_of_getElem? found)).symm
        have still : (commitEdit image (id, rope)).functions[other.toNat]? = some func := by
          rw [getElem?_commitEdit, if_neg away, known]
        obtain ⟨function, body⟩ := later.edited k other otherRope func found still
        have old : func.body.toNat < image.bodies.size := inside func (Array.mem_of_getElem? known)
        rw [size, Nat.add_right_comm, Nat.add_assoc] at function body
        refine ⟨function, ?_⟩
        rw [body, commitEdit_eq, Array.getElem?_push_lt old, Array.getElem?_eq_getElem old]

namespace Committed

variable {image next : Image} {edits : Edits}

-- Every function is an old one, or an old one with new code.
theorem function_cases (done : Committed image edits next) {i : Nat} {func' : Func}
    (found : next.functions[i]? = some func') :
    ∃ func, image.functions[i]? = some func ∧ (func' = func ∨ ∃ k id rope, edits[k]? = some (id, rope) ∧ id.toNat = i ∧
      func' = func.withCode (image.bodies.size + k).toUInt32 (Rope.toBytes rope).size ∧
      next.bodies[image.bodies.size + k]? =
        some ⟨Rope.toBytes rope, image.bodies[func.body.toNat]?.bind Body.jumpTables⟩) := by
  by_cases untouched : ∀ edit ∈ edits, edit.1.toNat ≠ i
  · rw [done.kept i untouched] at found
    exact ⟨func', found, .inl rfl⟩
  · simp only [not_forall, not_not] at untouched
    obtain ⟨⟨id, rope⟩, member, rfl⟩ := untouched
    obtain ⟨k, place⟩ := List.mem_iff_getElem?.mp member
    have old : id.toNat < image.functions.size := done.size ▸ (Array.getElem?_eq_some_iff.mp found).1
    have known := Array.getElem?_eq_getElem old
    obtain ⟨function, body⟩ := done.edited k id rope _ place known
    rw [function] at found
    cases found
    exact ⟨_, known, .inr ⟨k, id, rope, place, rfl, rfl, body⟩⟩

-- A new number that is cut to a word only gets smaller, so it still names a body.
theorem wellFormed (done : Committed image edits next) (good : image.WellFormed) : next.WellFormed := by
  have readable : next.Readable := by
    rw [done.others]
    exact ⟨good.strings, good.kinds, good.known⟩
  refine ⟨readable, ?_, by rw [done.others]; exact good.bigInts, by rw [done.others]; exact good.regExps⟩
  intro func' member
  obtain ⟨i, found⟩ := Array.mem_iff_getElem?.mp member
  obtain ⟨func, known, rfl | ⟨k, id, rope, place, -, rfl, -⟩⟩ := done.function_cases found
  · have old := good.bodies _ (Array.mem_of_getElem? known)
    rw [done.count]
    omega
  · have bound := (List.getElem?_eq_some_iff.mp place).1
    have cut := Nat.mod_le (image.bodies.size + k) 0x100000000
    rw [Func.withCode, toNat_toUInt32, done.count]
    omega

theorem smallCaches (done : Committed image edits next) (small : image.SmallCaches) : next.SmallCaches := by
  intro func' member
  obtain ⟨i, found⟩ := Array.mem_iff_getElem?.mp member
  obtain ⟨func, known, rfl | ⟨k, id, rope, -, -, rfl, -⟩⟩ := done.function_cases found
  · exact small _ (Array.mem_of_getElem? known)
  · exact small func (Array.mem_of_getElem? known)

-- The number of the body that edit `k` makes.
theorem toNat_number (done : Committed image edits next) (few : next.bodies.size ≤ 0x100000000) {k : Nat}
    {edit : UInt32 × Rope} (place : edits[k]? = some edit) :
    (image.bodies.size + k).toUInt32.toNat = image.bodies.size + k := by
  have bound := (List.getElem?_eq_some_iff.mp place).1
  have count := done.count
  exact toNat_toUInt32_of_lt (by omega)

theorem plainTables (done : Committed image edits next) (few : next.bodies.size ≤ 0x100000000) (good : image.WellFormed)
    (plain : image.PlainTables) : next.PlainTables := by
  intro func' member body' held
  obtain ⟨i, found⟩ := Array.mem_iff_getElem?.mp member
  obtain ⟨func, known, rfl | ⟨k, id, rope, place, -, rfl, fresh⟩⟩ := done.function_cases found
  · have listed := Array.mem_of_getElem? known
    rw [done.bodies _ (good.bodies _ listed)] at held
    exact plain _ listed body' held
  · have listed := Array.mem_of_getElem? known
    rw [Func.withCode, done.toNat_number few place, fresh] at held
    cases held
    intro tables present
    obtain ⟨body, old, same⟩ := Option.bind_eq_some_iff.mp present
    exact plain func listed body old tables same

end Committed
end Session
end CodeImage
