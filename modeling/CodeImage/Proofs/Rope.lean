import CodeImage.Rope
import CodeImage.Proofs.Bytes

namespace CodeImage

-- Bounds of a part count only as far as the data goes.
theorem extract_congr {data : ByteArray} {start stop start' stop' : Nat}
    (stops : min stop data.size = min stop' data.size)
    (starts : min start (min stop data.size) = min start' (min stop' data.size)) :
    data.extract start stop = data.extract start' stop' := by
  have size : (data.extract start stop).size = (data.extract start' stop').size := by
    simp only [ByteArray.size_extract]
    omega
  apply bytes_ext size
  intro i inside
  rw [ByteArray.size_extract] at inside
  rw [byteAt_extract, byteAt_extract, if_pos (by omega), if_pos (by omega), show start = start' by omega]

namespace Rope

@[simp]
theorem toBytes_leaf (data : ByteArray) : (leaf data).toBytes = data := by
  by_cases none : data.size = 0
  · simp [toBytes, leaves, leavesOnto, ByteArray.size_eq_zero_iff.mp none]
  · simp [toBytes, leaves, leavesOnto, none]

@[simp]
theorem toBytes_empty : empty.toBytes = ByteArray.empty := toBytes_leaf _

-- Joining the pieces goes through the tree from left to right.
theorem foldl_leavesOnto (rope : Rope) (front : ByteArray) (rest : List ByteArray) :
    (rope.leavesOnto rest).foldl (· ++ ·) front = rest.foldl (· ++ ·) (front ++ rope.toBytes) := by
  induction rope generalizing front rest with
  | leaf data =>
    rw [toBytes_leaf, leavesOnto]
    split
    · next none => rw [ByteArray.size_eq_zero_iff.mp none, ByteArray.append_empty]
    · rfl
  | node left right length height leftIh rightIh =>
    have whole : (node left right length height).toBytes = left.toBytes ++ right.toBytes := by
      rw [toBytes, leaves, leavesOnto, leftIh, rightIh, List.foldl_nil, ByteArray.empty_append]
    rw [leavesOnto, leftIh, rightIh, whole, ByteArray.append_assoc]

@[simp]
theorem toBytes_node (left right : Rope) (length height : Nat) :
    (node left right length height).toBytes = left.toBytes ++ right.toBytes := by
  rw [toBytes, leaves, leavesOnto, foldl_leavesOnto, foldl_leavesOnto, List.foldl_nil, ByteArray.empty_append]

-- Every node knows the length of its tree.
def Sound : Rope → Prop
  | leaf _ => True
  | node left right length _ => length = left.size + right.size ∧ left.Sound ∧ right.Sound

theorem sound_leaf (data : ByteArray) : (leaf data).Sound := trivial

theorem sound_empty : empty.Sound := trivial

@[simp]
theorem size_toBytes {rope : Rope} (sound : rope.Sound) : rope.toBytes.size = rope.size := by
  induction rope with
  | leaf data => simp [size]
  | node left right length height leftIh rightIh =>
    obtain ⟨total, leftSound, rightSound⟩ := sound
    simp [size, leftIh leftSound, rightIh rightSound, total]

theorem toBytes_of_isEmpty {rope : Rope} (sound : rope.Sound) (none : rope.isEmpty = true) :
    rope.toBytes = ByteArray.empty := by
  apply ByteArray.size_eq_zero_iff.mp
  rw [size_toBytes sound]
  simpa [isEmpty] using none

variable {left right rope value : Rope}

theorem sound_concat (leftSound : left.Sound) (rightSound : right.Sound) : (left.concat right).Sound := by
  unfold concat
  split
  · exact leftSound
  · split
    · exact rightSound
    · exact ⟨rfl, leftSound, rightSound⟩

theorem toBytes_concat (leftSound : left.Sound) (rightSound : right.Sound) :
    (left.concat right).toBytes = left.toBytes ++ right.toBytes := by
  unfold concat
  split
  · next none => rw [toBytes_of_isEmpty rightSound none, ByteArray.append_empty]
  · split
    · next none => rw [toBytes_of_isEmpty leftSound none, ByteArray.empty_append]
    · exact toBytes_node ..

theorem sound_ite {present : Prop} [Decidable present] (sound : rope.Sound) :
    (if present then rope else empty).Sound := by
  split
  · exact sound
  · exact sound_empty

theorem sound_slice (sound : rope.Sound) (start stop : Nat) : (rope.slice start stop).Sound := by
  induction rope generalizing start stop with
  | leaf data =>
    simp only [slice]
    split
    · exact sound
    · exact sound_leaf _
  | node left right length height leftIh rightIh =>
    obtain ⟨total, leftSound, rightSound⟩ := sound
    simp only [slice]
    split
    · exact ⟨total, leftSound, rightSound⟩
    · exact sound_concat (sound_ite (leftIh leftSound ..)) (sound_ite (rightIh rightSound ..))

theorem toBytes_slice (sound : rope.Sound) (start stop : Nat) :
    (rope.slice start stop).toBytes = rope.toBytes.extract start stop := by
  induction rope generalizing start stop with
  | leaf data =>
    simp only [slice]
    split
    · next whole =>
      rw [toBytes_leaf]
      exact (ByteArray.extract_zero_size (b := data)).symm.trans (extract_congr (by omega) (by omega))
    · rw [toBytes_leaf, toBytes_leaf]
      exact extract_congr (by omega) (by omega)
  | node left right length height leftIh rightIh =>
    obtain ⟨rfl, leftSound, rightSound⟩ := sound
    have leftSize := size_toBytes leftSound
    have rightSize := size_toBytes rightSound
    simp only [slice]
    rw [toBytes_node]
    split
    · next whole =>
      rw [toBytes_node]
      refine (ByteArray.extract_zero_size (b := left.toBytes ++ right.toBytes)).symm.trans (extract_congr ?_ ?_)
      · rw [ByteArray.size_append]
        omega
      · rw [ByteArray.size_append]
        omega
    -- The part on either side of the split is a part of that side, or there is none.
    · rw [ByteArray.extract_append]
      have head : (if min start (min stop (left.size + right.size)) < left.size then
          left.slice (min start (min stop (left.size + right.size))) (min (min stop (left.size + right.size)) left.size)
          else empty).toBytes = left.toBytes.extract start stop := by
        split
        · rw [leftIh leftSound]
          exact extract_congr (by omega) (by omega)
        · rw [toBytes_empty]
          exact (ByteArray.extract_eq_empty_iff.mpr (by omega)).symm
      have tail : (if left.size < min stop (left.size + right.size) then
          right.slice (min start (min stop (left.size + right.size)) - left.size)
            (min stop (left.size + right.size) - left.size)
          else empty).toBytes = right.toBytes.extract (start - left.toBytes.size) (stop - left.toBytes.size) := by
        split
        · rw [rightIh rightSound]
          exact extract_congr (by omega) (by omega)
        · rw [toBytes_empty]
          exact (ByteArray.extract_eq_empty_iff.mpr (by omega)).symm
      rw [toBytes_concat (sound_ite (sound_slice leftSound ..)) (sound_ite (sound_slice rightSound ..)), head, tail]

theorem sound_replace (sound : rope.Sound) (valueSound : value.Sound) (start stop : Nat) :
    (rope.replace start stop value).Sound :=
  sound_concat (sound_concat (sound_slice sound ..) valueSound) (sound_slice sound ..)

theorem toBytes_replace (sound : rope.Sound) (valueSound : value.Sound) (start stop : Nat) :
    (rope.replace start stop value).toBytes =
      rope.toBytes.extract 0 start ++ value.toBytes ++ rope.toBytes.extract (max stop start) rope.size := by
  rw [replace, toBytes_concat (sound_concat (sound_slice sound ..) valueSound) (sound_slice sound ..),
    toBytes_concat (sound_slice sound ..) valueSound, toBytes_slice sound, toBytes_slice sound]

end Rope
end CodeImage
