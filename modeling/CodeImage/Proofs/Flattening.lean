import CodeImage.Proofs.Rope

namespace CodeImage.Rope

-- The pieces from left to right, empty ones among them.
def pieces : Rope → List ByteArray
  | leaf data => [data]
  | node left right _ _ => left.pieces ++ right.pieces

-- The bytes of all pieces, one piece after the other.
def flat (rope : Rope) : List UInt8 := rope.pieces.flatMap fun data => data.data.toList

-- The height of the tree, counted.
def height : Rope → Nat
  | leaf _ => 0
  | node left right _ _ => 1 + max left.height right.height

-- No node has a side without bytes.
def Full : Rope → Prop
  | leaf _ => True
  | node left right _ _ => left.flat ≠ [] ∧ right.flat ≠ [] ∧ left.Full ∧ right.Full

-- Ropes that are made of byte strings by the operations, in any nesting, as far as the operations give one.
inductive Built : Rope → Prop where
  | leaf (data : ByteArray) (small : data.size < addressLimit) : Built (leaf data)
  | concat {left right whole : Rope} (first : Built left) (second : Built right)
      (joined : left.concat? right = some whole) : Built whole
  | slice {rope part : Rope} {start stop : Nat} (whole : Built rope) (taken : rope.slice? start stop = some part) : Built part
  | replace {rope value changed : Rope} {start stop : Nat} (whole : Built rope) (part : Built value)
      (replaced : rope.replace? start stop value = some changed) : Built changed
  | insert {rope value changed : Rope} {index : Nat} (whole : Built rope) (part : Built value)
      (inserted : rope.insert? index value = some changed) : Built changed
  | remove {rope changed : Rope} {start stop : Nat} (whole : Built rope)
      (removed : rope.remove? start stop = some changed) : Built changed

-- What the operations keep: a node knows length and depth of its tree, and both of its sides hold bytes.
def Tidy : Rope → Prop
  | leaf _ => True
  | node left right length height => length = left.size + right.size ∧ height = 1 + max left.depth right.depth ∧
      left.isEmpty = false ∧ right.isEmpty = false ∧ left.Tidy ∧ right.Tidy

variable {left right rope value : Rope}

theorem Tidy.sound (tidy : rope.Tidy) : rope.Sound := by
  induction rope with
  | leaf data => trivial
  | node left right length height leftIh rightIh =>
    obtain ⟨total, -, -, -, leftTidy, rightTidy⟩ := tidy
    exact ⟨total, leftIh leftTidy, rightIh rightTidy⟩

theorem tidy_concat (leftTidy : left.Tidy) (rightTidy : right.Tidy) : (left.concat right).Tidy := by
  unfold concat
  split
  · exact leftTidy
  · next rightFull =>
    split
    · exact rightTidy
    · next leftFull => exact ⟨rfl, rfl, by simpa using leftFull, by simpa using rightFull, leftTidy, rightTidy⟩

theorem depth_concat_le (left right : Rope) : (left.concat right).depth ≤ 1 + max left.depth right.depth := by
  unfold concat
  split
  · omega
  · split
    · omega
    · exact le_refl _

theorem tidy_leaf (data : ByteArray) : (leaf data).Tidy := trivial

theorem tidy_empty : empty.Tidy := trivial

-- A part of a rope that is no deeper than the whole.
def Within (part rope : Rope) : Prop := part.Tidy ∧ part.depth ≤ rope.depth

theorem within_empty (rope : Rope) : Within empty rope := ⟨tidy_empty, Nat.zero_le _⟩

theorem within_ite {part : Rope} {present : Prop} [Decidable present] (within : Within part rope) :
    Within (if present then part else empty) rope := by
  split
  · exact within
  · exact within_empty rope

-- A slice of a node is made of slices of its sides, and joining them adds at most the one level that the node has.
theorem within_slice (tidy : rope.Tidy) (start stop : Nat) : Within (rope.slice start stop) rope := by
  induction rope generalizing start stop with
  | leaf data =>
    simp only [slice]
    split
    · exact ⟨trivial, le_refl _⟩
    · exact ⟨trivial, le_refl _⟩
  | node left right length height leftIh rightIh =>
    simp only [slice]
    split
    · exact ⟨tidy, le_refl _⟩
    · obtain ⟨-, deep, -, -, leftTidy, rightTidy⟩ := tidy
      have join {head tail : Rope} (headIn : Within head left) (tailIn : Within tail right) :
          Within (head.concat tail) (node left right length height) := by
        refine ⟨tidy_concat headIn.1 tailIn.1, (depth_concat_le head tail).trans ?_⟩
        have := headIn.2
        have := tailIn.2
        rw [depth, deep]
        omega
      exact join (within_ite (leftIh leftTidy ..)) (within_ite (rightIh rightTidy ..))

theorem tidy_replace (tidy : rope.Tidy) (valueTidy : value.Tidy) (start stop : Nat) :
    (rope.replace start stop value).Tidy :=
  tidy_concat (tidy_concat (within_slice tidy ..).1 valueTidy) (within_slice tidy ..).1

theorem flat_node (left right : Rope) (length height : Nat) :
    (node left right length height).flat = left.flat ++ right.flat := List.flatMap_append

-- The list of bytes is what joining the pieces gives.
theorem toList_toBytes (rope : Rope) : rope.toBytes.data.toList = rope.flat := by
  induction rope with
  | leaf data => simp [flat, pieces]
  | node left right length height leftIh rightIh =>
    rw [toBytes_node, flat_node, ← leftIh, ← rightIh, ByteArray.data_append, Array.toList_append]

theorem length_flat (tidy : rope.Tidy) : rope.flat.length = rope.size := by
  rw [← toList_toBytes, ← size_toBytes tidy.sound]
  exact Array.length_toList

theorem depth_eq (tidy : rope.Tidy) : rope.depth = rope.height := by
  induction rope with
  | leaf data => rfl
  | node left right length height leftIh rightIh =>
    obtain ⟨-, deep, -, -, leftTidy, rightTidy⟩ := tidy
    rw [depth, deep, leftIh leftTidy, rightIh rightTidy, Rope.height]

theorem flat_ne_nil (tidy : rope.Tidy) (bytes : rope.isEmpty = false) : rope.flat ≠ [] := by
  intro none
  have size := length_flat tidy
  rw [none] at size
  simp [isEmpty, ← size] at bytes

theorem Tidy.full (tidy : rope.Tidy) : rope.Full := by
  induction rope with
  | leaf data => trivial
  | node left right length height leftIh rightIh =>
    obtain ⟨-, -, leftBytes, rightBytes, leftTidy, rightTidy⟩ := tidy
    exact ⟨flat_ne_nil leftTidy leftBytes, flat_ne_nil rightTidy rightBytes, leftIh leftTidy, rightIh rightTidy⟩

theorem leavesOnto_eq (rope : Rope) (rest : List ByteArray) :
    rope.leavesOnto rest = rope.pieces.filter (fun data => data.size != 0) ++ rest := by
  induction rope generalizing rest with
  | leaf data =>
    by_cases none : data.size = 0
    · simp [leavesOnto, pieces, none]
    · simp [leavesOnto, pieces, none]
  | node left right length height leftIh rightIh => simp [leavesOnto, pieces, leftIh, rightIh]

theorem toList_extract (data : ByteArray) (start stop : Nat) :
    (data.extract start stop).data.toList = (data.data.toList.take (min stop data.size)).drop start := by
  have size : data.data.toList.length = data.size := Array.length_toList
  rw [ByteArray.data_extract, Array.toList_extract, List.extract_eq_take_drop, ← List.drop_take, ← size,
    ← List.take_eq_take_min]

theorem flat_concat (leftTidy : left.Tidy) (rightTidy : right.Tidy) : (left.concat right).flat = left.flat ++ right.flat := by
  rw [← toList_toBytes, toBytes_concat leftTidy.sound rightTidy.sound, ByteArray.data_append, Array.toList_append,
    toList_toBytes, toList_toBytes]

theorem flat_slice (tidy : rope.Tidy) (start stop : Nat) :
    (rope.slice start stop).flat = (rope.flat.take (min stop rope.size)).drop start := by
  rw [← toList_toBytes, toBytes_slice tidy.sound, toList_extract, toList_toBytes, size_toBytes tidy.sound]

theorem flat_replace (tidy : rope.Tidy) (valueTidy : value.Tidy) (start stop : Nat) :
    (rope.replace start stop value).flat = rope.flat.take start ++ value.flat ++ rope.flat.drop (max start stop) := by
  rw [replace, flat_concat (tidy_concat (within_slice tidy ..).1 valueTidy) (within_slice tidy ..).1,
    flat_concat (within_slice tidy ..).1 valueTidy, flat_slice tidy, flat_slice tidy]
  have length := length_flat tidy
  rw [List.drop_zero, Nat.min_self, Nat.max_comm, ← length, List.take_length, ← List.take_eq_take_min]

theorem beq_iff {a b : ByteArray} : a.beq b = true ↔ a = b := by
  rw [ByteArray.beq, beq_iff_eq]
  exact ByteArray.ext_iff.symm

theorem equals_iff (tidy : rope.Tidy) (valueTidy : value.Tidy) : rope.equals value = true ↔ rope.flat = value.flat := by
  rw [← toList_toBytes, ← toList_toBytes]
  simp only [equals, Bool.and_eq_true, beq_iff_eq]
  constructor
  · rintro ⟨-, same⟩
    rw [beq_iff.mp same]
  · intro same
    have bytes : rope.toBytes = value.toBytes := ByteArray.ext (Array.toList_inj.mp same)
    refine ⟨?_, beq_iff.mpr bytes⟩
    rw [← size_toBytes tidy.sound, ← size_toBytes valueTidy.sound, bytes]

theorem size_concat (left right : Rope) : (left.concat right).size = left.size + right.size := by
  unfold concat
  split
  · next none => rw [beq_iff_eq.mp none, Nat.add_zero]
  · split
    · next none => rw [beq_iff_eq.mp none, Nat.zero_add]
    · rfl

theorem depth_of_isEmpty (tidy : rope.Tidy) (none : rope.isEmpty = true) : rope.depth = 0 := by
  cases rope with
  | leaf data => rfl
  | node left right length height =>
    obtain ⟨total, -, leftBytes, -⟩ := tidy
    rw [isEmpty, beq_eq_false_iff_ne] at leftBytes
    rw [isEmpty, beq_iff_eq, size] at none
    omega

theorem depth_le_concat (leftTidy : left.Tidy) (right : Rope) : left.depth ≤ (left.concat right).depth := by
  unfold concat
  split
  · exact le_refl _
  · split
    · next none =>
      rw [depth_of_isEmpty leftTidy none]
      exact Nat.zero_le _
    · rw [depth]
      omega

theorem size_slice_le (tidy : rope.Tidy) (start stop : Nat) : (rope.slice start stop).size ≤ rope.size := by
  rw [← length_flat (within_slice tidy start stop).1, flat_slice tidy, ← length_flat tidy, List.length_drop, List.length_take]
  omega

theorem fits_slice (tidy : rope.Tidy) (fits : rope.Fits) (start stop : Nat) : (rope.slice start stop).Fits :=
  ⟨(size_slice_le tidy start stop).trans_lt fits.1, (within_slice tidy start stop).2.trans_lt fits.2⟩

theorem fits_empty : empty.Fits := by decide

theorem fits_ite {present : Prop} [Decidable present] (fits : rope.Fits) : (if present then rope else empty).Fits := by
  split
  · exact fits
  · exact fits_empty

-- A rope that is itself within the words is joined as it is; only a new node can be too much for them.
theorem concat?_eq (leftFits : left.Fits) (rightFits : right.Fits) :
    left.concat? right = if (left.concat right).Fits then some (left.concat right) else none := by
  unfold concat? concat
  split
  · rfl
  · split
    · rfl
    · rfl

theorem Tidy.fits_sides {length height : Nat} (tidy : (node left right length height).Tidy)
    (fits : (node left right length height).Fits) : left.Fits ∧ right.Fits := by
  obtain ⟨total, deep, -⟩ := tidy
  obtain ⟨short, low⟩ := fits
  rw [size, total] at short
  rw [depth, deep] at low
  exact ⟨⟨by omega, by omega⟩, ⟨by omega, by omega⟩⟩

-- A part is never longer or deeper than the whole, so cutting never leaves the words.
theorem slice?_eq (tidy : rope.Tidy) (fits : rope.Fits) (start stop : Nat) :
    rope.slice? start stop = some (rope.slice start stop) := by
  induction rope generalizing start stop with
  | leaf data => rfl
  | node left right length height leftIh rightIh =>
    have partFits := fits_slice tidy fits start stop
    obtain ⟨leftFits, rightFits⟩ := tidy.fits_sides fits
    obtain ⟨-, -, -, -, leftTidy, rightTidy⟩ := tidy
    simp only [slice?, slice] at partFits ⊢
    split
    · rfl
    · next part =>
      rw [if_neg part] at partFits
      simp only [leftIh leftTidy leftFits, rightIh rightTidy rightFits, ← apply_ite some, Option.bind_eq_bind,
        Option.bind_some]
      rw [concat?_eq (fits_ite (fits_slice leftTidy leftFits ..)) (fits_ite (fits_slice rightTidy rightFits ..)),
        if_pos partFits]

-- What stands in front of the tail is no longer or deeper than the result, so the result alone decides.
theorem replace?_eq (tidy : rope.Tidy) (valueTidy : value.Tidy) (fits : rope.Fits) (valueFits : value.Fits)
    (start stop : Nat) :
    rope.replace? start stop value =
      if (rope.replace start stop value).Fits then some (rope.replace start stop value) else none := by
  have headFits := fits_slice tidy fits 0 start
  have tailFits := fits_slice tidy fits (max stop start) rope.size
  simp only [replace?, slice?_eq tidy fits, Option.bind_eq_bind, Option.bind_some, concat?_eq headFits valueFits]
  by_cases frontFits : ((rope.slice 0 start).concat value).Fits
  · rw [if_pos frontFits, Option.bind_some, concat?_eq frontFits tailFits]
    rfl
  · have frontTidy := tidy_concat (within_slice tidy 0 start).1 valueTidy
    have wholeNot : ¬ (rope.replace start stop value).Fits := by
      rintro ⟨short, low⟩
      rw [replace, size_concat] at short
      exact frontFits ⟨by omega, (depth_le_concat frontTidy _).trans_lt low⟩
    rw [if_neg frontFits, if_neg wholeNot, Option.bind_none]

-- With two levels and all bytes to spare, replacing stays within the words.
theorem replace?_of_room (tidy : rope.Tidy) (valueTidy : value.Tidy) (room : rope.size + value.size < addressLimit)
    (low : max rope.depth value.depth + 2 < heightLimit) (start stop : Nat) :
    rope.replace? start stop value = some (rope.replace start stop value) := by
  have short : (rope.replace start stop value).size ≤ rope.size + value.size := by
    rw [← length_flat (tidy_replace tidy valueTidy start stop), flat_replace tidy valueTidy, ← length_flat tidy,
      ← length_flat valueTidy]
    simp only [List.length_append, List.length_take, List.length_drop]
    omega
  have deep : (rope.replace start stop value).depth ≤ max rope.depth value.depth + 2 := by
    have head := (within_slice tidy 0 start).2
    have tail := (within_slice tidy (max stop start) rope.size).2
    have front := depth_concat_le (rope.slice 0 start) value
    have whole := depth_concat_le ((rope.slice 0 start).concat value) (rope.slice (max stop start) rope.size)
    rw [replace]
    omega
  rw [replace?_eq tidy valueTidy ⟨by omega, by omega⟩ ⟨by omega, by omega⟩, if_pos ⟨by omega, by omega⟩]

theorem eq_of_ite_some {exact whole : Rope} {result : Option Rope}
    (outcome : result = if exact.Fits then some exact else none) (given : result = some whole) :
    exact.Fits ∧ exact = whole := by
  rw [given] at outcome
  split at outcome
  · next fits => exact ⟨fits, (Option.some.inj outcome).symm⟩
  · cases outcome

theorem Built.tidy_fits (built : rope.Built) : rope.Tidy ∧ rope.Fits := by
  induction built with
  | leaf data small => exact ⟨trivial, small, Nat.succ_pos _⟩
  | concat _ _ joined leftIh rightIh =>
    obtain ⟨fits, rfl⟩ := eq_of_ite_some (concat?_eq leftIh.2 rightIh.2) joined
    exact ⟨tidy_concat leftIh.1 rightIh.1, fits⟩
  | slice _ taken ih =>
    cases (slice?_eq ih.1 ih.2 _ _).symm.trans taken
    exact ⟨(within_slice ih.1 _ _).1, fits_slice ih.1 ih.2 _ _⟩
  | replace _ _ replaced ih valueIh =>
    obtain ⟨fits, rfl⟩ := eq_of_ite_some (replace?_eq ih.1 valueIh.1 ih.2 valueIh.2 _ _) replaced
    exact ⟨tidy_replace ih.1 valueIh.1 _ _, fits⟩
  | insert _ _ inserted ih valueIh =>
    obtain ⟨fits, rfl⟩ := eq_of_ite_some (replace?_eq ih.1 valueIh.1 ih.2 valueIh.2 _ _) inserted
    exact ⟨tidy_replace ih.1 valueIh.1 _ _, fits⟩
  | remove _ removed ih =>
    obtain ⟨fits, rfl⟩ := eq_of_ite_some (replace?_eq ih.1 tidy_empty ih.2 fits_empty _ _) removed
    exact ⟨tidy_replace ih.1 tidy_empty _ _, fits⟩

-- An operation gives the rope `exact`, which holds `bytes`, unless it is longer or higher than a word tells.
def Yields (result : Option Rope) (exact : Rope) (bytes : List UInt8) : Prop :=
  exact.flat = bytes ∧
    result = if bytes.length < addressLimit ∧ exact.height < heightLimit then some exact else none

theorem yields_of_tidy {exact : Rope} {result : Option Rope} {bytes : List UInt8} (tidy : exact.Tidy)
    (flat : exact.flat = bytes) (outcome : result = if exact.Fits then some exact else none) :
    Yields result exact bytes := by
  refine ⟨flat, ?_⟩
  rw [outcome, ← flat, length_flat tidy, ← depth_eq tidy]
  rfl

theorem yields_replace (built : rope.Built) (valueBuilt : value.Built) (start stop : Nat) :
    Yields (rope.replace? start stop value) (rope.replace start stop value)
      (rope.flat.take start ++ value.flat ++ rope.flat.drop (max start stop)) := by
  obtain ⟨tidy, fits⟩ := built.tidy_fits
  obtain ⟨valueTidy, valueFits⟩ := valueBuilt.tidy_fits
  exact yields_of_tidy (tidy_replace tidy valueTidy start stop) (flat_replace tidy valueTidy start stop)
    (replace?_eq tidy valueTidy fits valueFits start stop)

theorem isEmpty_iff (tidy : rope.Tidy) : rope.isEmpty = true ↔ rope.flat = [] := by
  rw [isEmpty, beq_iff_eq, ← length_flat tidy, List.length_eq_zero_iff]

-- Two ropes cannot be joined exactly if both have bytes and the node above them is too long or too high.
theorem concat?_eq_none_iff (built : rope.Built) (valueBuilt : value.Built) :
    rope.concat? value = none ↔ rope.flat ≠ [] ∧ value.flat ≠ [] ∧
      (addressLimit ≤ rope.flat.length + value.flat.length ∨ heightLimit ≤ 1 + max rope.height value.height) := by
  have tidy := built.tidy_fits.1
  have valueTidy := valueBuilt.tidy_fits.1
  rw [ne_eq, ne_eq, ← isEmpty_iff tidy, ← isEmpty_iff valueTidy, length_flat tidy, length_flat valueTidy,
    ← depth_eq tidy, ← depth_eq valueTidy, concat?]
  split
  · next none => simp [none]
  · next some =>
    split
    · next none => simp [none]
    · next full =>
      simp only [node?, full, some, not_false_eq_true, true_and, ite_eq_right_iff, reduceCtorEq, imp_false]
      omega

-- A rope is its bytes: what is remembered of the tree is true of it, and the operations are those of lists of bytes
-- as long as length and height are machine words.
theorem rope_refines_bytes (built : rope.Built) :
    (rope.size = rope.flat.length ∧ rope.size < addressLimit ∧ rope.depth = rope.height ∧ rope.depth < heightLimit ∧
      rope.Full) ∧
    rope.leaves = rope.pieces.filter (fun data => data.size != 0) ∧ rope.toBytes.data.toList = rope.flat ∧
    (∀ other, other.Built → Yields (rope.concat? other) (rope.concat other) (rope.flat ++ other.flat) ∧
      (rope.concat? other = none ↔ rope.flat ≠ [] ∧ other.flat ≠ [] ∧
        (addressLimit ≤ rope.flat.length + other.flat.length ∨ heightLimit ≤ 1 + max rope.height other.height))) ∧
    -- Bounds of a slice may lie past the end or in the wrong order.
    (∀ start stop, ∃ part, rope.slice? start stop = some part ∧
      part.flat = (rope.flat.take (min stop rope.size)).drop start ∧ part.depth ≤ rope.depth) ∧
    (∀ other start stop, other.Built → Yields (rope.replace? start stop other) (rope.replace start stop other)
      (rope.flat.take start ++ other.flat ++ rope.flat.drop (max start stop))) ∧
    (∀ other index, other.Built → Yields (rope.insert? index other) (rope.insert index other)
      (rope.flat.take index ++ other.flat ++ rope.flat.drop index)) ∧
    (∀ start stop, Yields (rope.remove? start stop) (rope.remove start stop)
      (rope.flat.take start ++ rope.flat.drop (max start stop))) ∧
    (∀ other, other.Built → (rope.equals other = true ↔ rope.flat = other.flat)) := by
  obtain ⟨tidy, fits⟩ := built.tidy_fits
  refine ⟨⟨(length_flat tidy).symm, fits.1, depth_eq tidy, fits.2, tidy.full⟩, ?_, toList_toBytes rope, ?_, ?_, ?_, ?_, ?_, ?_⟩
  · rw [leaves, leavesOnto_eq, List.append_nil]
  · intro other otherBuilt
    obtain ⟨otherTidy, otherFits⟩ := otherBuilt.tidy_fits
    exact ⟨yields_of_tidy (tidy_concat tidy otherTidy) (flat_concat tidy otherTidy) (concat?_eq fits otherFits),
      concat?_eq_none_iff built otherBuilt⟩
  · intro start stop
    exact ⟨_, slice?_eq tidy fits start stop, flat_slice tidy start stop, (within_slice tidy start stop).2⟩
  · intro other start stop otherBuilt
    exact yields_replace built otherBuilt start stop
  · intro other index otherBuilt
    have inserted := yields_replace built otherBuilt index index
    rwa [Nat.max_self] at inserted
  · intro start stop
    have removed := yields_replace built (.leaf .empty (by decide)) start stop
    have none : (leaf .empty).flat = [] := rfl
    rwa [none, List.append_nil] at removed
  · intro other otherBuilt
    exact equals_iff tidy otherBuilt.tidy_fits.1

-- Three pieces of which the first is cut, in a tree of two levels.
def sampleRope : Rope := ((leaf ⟨#[1, 2, 3]⟩).concat ((leaf ⟨#[4]⟩).concat (leaf ⟨#[5, 6]⟩))).slice 1 9

theorem sample_rope_refines :
    sampleRope.Built ∧ sampleRope.depth = sampleRope.height ∧ sampleRope.toBytes.data.toList = [2, 3, 4, 5, 6] ∧
      (sampleRope.replace? 3 1 sampleRope).map flat = some [2, 3, 4, 2, 3, 4, 5, 6, 5, 6] ∧
      (sampleRope.slice? 4 2).map flat = some [] ∧ sampleRope.equals (leaf ⟨#[2, 3, 4, 5, 6]⟩) = true := by
  have piece (data : ByteArray) (small : data.size < addressLimit) : (leaf data).Built := .leaf data small
  have whole : ((leaf ⟨#[1, 2, 3]⟩).concat ((leaf ⟨#[4]⟩).concat (leaf ⟨#[5, 6]⟩))).Built :=
    .concat (piece ⟨#[1, 2, 3]⟩ (by decide)) (.concat (piece ⟨#[4]⟩ (by decide)) (piece ⟨#[5, 6]⟩ (by decide)) rfl) rfl
  have built : sampleRope.Built := .slice whole (show slice? _ 1 9 = _ from rfl)
  have flat : sampleRope.flat = [2, 3, 4, 5, 6] := by decide
  obtain ⟨⟨-, -, depth, -⟩, -, bytes, -, slice, replace, -, -, equals⟩ := rope_refines_bytes built
  refine ⟨built, depth, bytes.trans flat, ?_, ?_, (equals _ (piece _ (by decide))).mpr (flat.trans rfl)⟩
  · obtain ⟨whole, outcome⟩ := replace _ 3 1 built
    rw [outcome, if_pos (by decide), Option.map_some, whole, flat]
    rfl
  · obtain ⟨part, taken, bytes, -⟩ := slice 4 2
    rw [taken, Option.map_some, bytes, flat]
    rfl

-- A byte joined to itself again and again: as many bytes as the power of two, in a tree as high.
def doubled : Nat → Option Rope
  | 0 => some (leaf ⟨#[0]⟩)
  | count + 1 => (doubled count).bind fun rope => rope.concat? rope

theorem doubled_built {count : Nat} (within : count < 64) :
    ∃ rope, doubled count = some rope ∧ rope.Built ∧ rope.size = 2 ^ count ∧ rope.depth = count := by
  induction count with
  | zero => exact ⟨_, rfl, .leaf _ (by decide), rfl, rfl⟩
  | succ count ih =>
    obtain ⟨rope, given, built, size, depth⟩ := ih (by omega)
    have length : 2 ^ (count + 1) ≤ 2 ^ 63 := Nat.pow_le_pow_right (by decide) (by omega)
    have bytes : rope.isEmpty = false := by simp [isEmpty, size]
    have joined : rope.concat? rope = some (node rope rope (2 ^ (count + 1)) (count + 1)) := by
      rw [concat?, bytes, node?, size, depth, Nat.max_self, Nat.add_comm 1 count, ← Nat.two_mul, ← Nat.pow_succ']
      have fits : 2 ^ (count + 1) < addressLimit ∧ count + 1 < heightLimit := by
        unfold addressLimit heightLimit
        omega
      simp [fits]
    exact ⟨_, by rw [doubled, given, Option.bind_some, joined], .concat built built joined, rfl, rfl⟩

-- With 2^63 bytes the next joining has no length.
theorem not_joined_past_words :
    ¬ ∀ left right : Rope, left.Built → right.Built →
      ∃ whole, left.concat? right = some whole ∧ whole.flat = left.flat ++ right.flat := by
  intro always
  obtain ⟨rope, -, built, size, -⟩ := doubled_built (show 63 < 64 by decide)
  obtain ⟨whole, joined, -⟩ := always rope rope built built
  have length : rope.flat.length = 2 ^ 63 := (length_flat built.tidy_fits.1).trans size
  have full : rope.flat ≠ [] := List.ne_nil_of_length_pos (by omega)
  rw [(concat?_eq_none_iff built built).mpr ⟨full, full, .inl (by rw [length]; decide)⟩] at joined
  cases joined

end CodeImage.Rope
