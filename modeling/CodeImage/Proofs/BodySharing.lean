import CodeImage.Proofs.Parsed

-- Bodies are told apart by offset and size alone, whatever the order in which headers name them and however they
-- overlap. A function that has a number finds all lower numbers among the functions before it.

namespace CodeImage

theorem nodup_foldl_addKey {keys seen : List BodyKey} (distinct : seen.Nodup) : (keys.foldl addKey seen).Nodup := by
  induction keys generalizing seen with
  | nil => exact distinct
  | cons key rest ih =>
    rw [List.foldl_cons]
    apply ih
    by_cases old : key ∈ seen
    · rwa [addKey_of_mem old]
    · rw [addKey_of_not_mem old]
      exact List.nodup_append.mpr ⟨distinct, List.nodup_singleton key, by grind⟩

namespace Reader

variable {headers : List FunctionHeader} {header : FunctionHeader}

theorem mem_bodyKeys_iff {key : BodyKey} : key ∈ bodyKeys headers ↔ ∃ header ∈ headers, bodyKey header = key := by
  rw [bodyKeys_eq, mem_foldl_addKey_iff, List.mem_map]
  simp

theorem nodup_bodyKeys (headers : List FunctionHeader) : (bodyKeys headers).Nodup := by
  rw [bodyKeys_eq]
  exact nodup_foldl_addKey .nil

-- More headers put their keys behind those that are there.
theorem bodyKeys_append (before after : List FunctionHeader) :
    ∃ fresh, bodyKeys (before ++ after) = bodyKeys before ++ fresh := by
  simp only [bodyKeys_eq, List.map_append, List.foldl_append]
  exact foldl_addKey_append _ _

-- The number of the body that a header names.
def bodyNumber (headers : List FunctionHeader) (header : FunctionHeader) : Nat := (bodyKeys headers).idxOf (bodyKey header)

theorem bodyNumber_lt (member : header ∈ headers) : bodyNumber headers header < (bodyKeys headers).length :=
  List.idxOf_lt_length_of_mem (mem_bodyKeys_iff.mpr ⟨header, member, rfl⟩)

theorem getElem?_bodyNumber (member : header ∈ headers) :
    (bodyKeys headers)[bodyNumber headers header]? = some (bodyKey header) :=
  List.getElem?_idxOf (mem_bodyKeys_iff.mpr ⟨header, member, rfl⟩)

theorem bodyNumber_eq_iff {a b : FunctionHeader} (member : a ∈ headers) :
    bodyNumber headers a = bodyNumber headers b ↔ bodyKey a = bodyKey b :=
  List.idxOf_inj (mem_bodyKeys_iff.mpr ⟨a, member, rfl⟩)

theorem bodyNumber_of_getElem? {k : Nat} {key : BodyKey} (found : (bodyKeys headers)[k]? = some key)
    (same : bodyKey header = key) : bodyNumber headers header = k := by
  obtain ⟨inside, rfl⟩ := List.getElem?_eq_some_iff.mp found
  rw [bodyNumber, same]
  exact (nodup_bodyKeys headers).idxOf_getElem k inside

-- A header names a body that was named before, or the next one.
theorem bodyNumber_le (before after : List FunctionHeader) (header : FunctionHeader) :
    bodyNumber (before ++ header :: after) header ≤ (bodyKeys before).length := by
  by_cases old : bodyKey header ∈ bodyKeys before
  · obtain ⟨fresh, split⟩ := bodyKeys_append before (header :: after)
    rw [bodyNumber, split, idxOf_append_of_mem fresh old]
    exact Nat.le_of_lt (List.idxOf_lt_length_of_mem old)
  · obtain ⟨fresh, split⟩ := foldl_addKey_append (after.map bodyKey) (bodyKeys before ++ [bodyKey header])
    have keys : bodyKeys (before ++ header :: after) = bodyKeys before ++ bodyKey header :: fresh := by
      rw [bodyKeys_eq, List.map_append, List.foldl_append, ← bodyKeys_eq, List.map_cons, List.foldl_cons,
        addKey_of_not_mem old, split, List.append_assoc, List.singleton_append]
    rw [bodyNumber, keys, idxOf_append_cons old]

-- Lower numbers were given before.
theorem used_before {i k : Nat} (found : headers[i]? = some header) (lower : k < bodyNumber headers header) :
    ∃ j other, j < i ∧ headers[j]? = some other ∧ bodyNumber headers other = k := by
  obtain ⟨inside, rfl⟩ := List.getElem?_eq_some_iff.mp found
  have parts : headers = headers.take i ++ headers[i] :: headers.drop (i + 1) := by
    rw [List.getElem_cons_drop, List.take_append_drop]
  have known : k < (bodyKeys (headers.take i)).length := by
    have most := bodyNumber_le (headers.take i) (headers.drop (i + 1)) headers[i]
    rw [← parts] at most
    omega
  obtain ⟨fresh, split⟩ := bodyKeys_append (headers.take i) (headers[i] :: headers.drop (i + 1))
  rw [← parts] at split
  have key : (bodyKeys headers)[k]? = some (bodyKeys (headers.take i))[k] := by
    rw [split, List.getElem?_append_left known, List.getElem?_eq_getElem known]
  obtain ⟨other, earlier, same⟩ := mem_bodyKeys_iff.mp (List.getElem_mem known)
  obtain ⟨j, short, rfl⟩ := List.mem_iff_getElem.mp earlier
  have place : j < i := by
    rw [List.length_take] at short
    omega
  refine ⟨j, _, place, ?_, bodyNumber_of_getElem? key same⟩
  rw [← List.getElem?_take_of_lt place, List.getElem?_eq_getElem short]

-- Every number that is given belongs to some header.
theorem exists_bodyNumber {k : Nat} (small : k < (bodyKeys headers).length) :
    ∃ header ∈ headers, bodyNumber headers header = k := by
  obtain ⟨header, member, same⟩ := mem_bodyKeys_iff.mp (List.getElem_mem small)
  exact ⟨header, member, bodyNumber_of_getElem? (List.getElem?_eq_getElem small) same⟩

-- Where a space ends: at the next body, and for the last one at the first trailer.
theorem bodyStops_next {k : Nat} {next : BodyKey} (found : (bodyKeys headers)[k + 1]? = some next) :
    (bodyStops headers)[k]? = some next.1.toNat := by
  cases headers with
  | nil => cases found
  | cons first rest =>
    obtain ⟨inside, -⟩ := List.getElem?_eq_some_iff.mp found
    rw [bodyStops, List.getElem?_append_left (by rw [List.length_map, List.length_drop]; omega), List.getElem?_map,
      List.getElem?_drop, Nat.add_comm 1 k, found]
    rfl

theorem bodyStops_last {k : Nat} {first : FunctionHeader} {rest : List FunctionHeader}
    (last : k + 1 = (bodyKeys (first :: rest)).length) :
    (bodyStops (first :: rest))[k]? = some first.infoOffset.toNat := by
  rw [bodyStops, List.getElem?_append_right (by rw [List.length_map, List.length_drop]; omega), List.length_map,
    List.length_drop, show k - ((bodyKeys (first :: rest)).length - 1) = 0 by omega]
  rfl

end Reader

theorem slice_of_start {file part : ByteArray} {offset len : Nat} :
    (⟨0, file⟩ : Region).slice offset len = .ok part ↔ slice? file offset len = some part := by
  rw [Region.slice, slice?, Region.stop]
  simp only [Nat.zero_le, true_and, Nat.zero_add, Nat.sub_zero]
  split
  · simp
  · simp

theorem isLeast_align4 (n : Nat) : IsLeast {m | n ≤ m ∧ 4 ∣ m} (align4 n) := by
  refine ⟨⟨le_align4 n, Nat.dvd_of_mod_eq_zero (align4_mod n)⟩, ?_⟩
  rintro m ⟨above, whole⟩
  unfold align4
  omega

namespace Image

-- The space of a body ends where the next body starts, and that of the last one at the first trailer.
structure EndsAt (image : Image) (id stop : Nat) : Prop where
  next : ∀ func ∈ image.functions, func.body.toNat = id + 1 → stop = func.header.offset.toNat
  last : id + 1 = image.bodies.size → ∀ func, image.functions[0]? = some func → stop = func.header.infoOffset.toNat

-- The bodies of an image are those places of a file that its headers name.
structure ByPlace (file : ByteArray) (image : Image) : Prop where
  shared : ∀ a ∈ image.functions, ∀ b ∈ image.functions,
    a.body = b.body ↔ a.header.offset = b.header.offset ∧ a.header.codeSize = b.header.codeSize
  -- Numbers come in the order of first use, and every body is used.
  inOrder : ∀ (i : Nat) (func : Func), image.functions[i]? = some func → ∀ k < func.body.toNat,
    ∃ (j : Nat) (other : Func), j < i ∧ image.functions[j]? = some other ∧ other.body.toNat = k
  used : ∀ k < image.bodies.size, ∃ func ∈ image.functions, func.body.toNat = k
  code : ∀ func ∈ image.functions, ∃ body, image.bodies[func.body.toNat]? = some body ∧
    slice? file func.header.offset.toNat func.header.codeSize.toNat = some body.code
  -- Jump tables start at the first multiple of four behind the code and take what is left of the space.
  tables : ∀ func ∈ image.functions, ∀ body, image.bodies[func.body.toNat]? = some body → ∃ start stop,
    IsLeast {n | func.header.offset.toNat + func.header.codeSize.toNat ≤ n ∧ 4 ∣ n} start ∧
    image.EndsAt func.body.toNat stop ∧
    (body.jumpTables = none ∧ stop ≤ start ∨
      ∃ tables, body.jumpTables = some tables ∧ 0 < tables.size ∧ start + tables.size = stop ∧
        slice? file start tables.size = some tables)

variable {image : Image} {file : ByteArray} {headers : List FunctionHeader}

section Assembled

variable (assembled : Reader.assemble ⟨0, file⟩ headers = .ok (image.functions, image.bodies))

include assembled

theorem map_header_of_assemble : image.functions.toList.map Func.header = headers := by
  obtain ⟨-, each⟩ := (@Reader.assemble_exact _ _ image.functions.toList image.bodies.toList).mp assembled
  rw [← List.forall₂_eq_eq_eq, List.forall₂_map_left_iff]
  refine each.flip.imp ?_
  rintro func header ⟨trailer, -, rfl⟩
  rfl

theorem size_bodies_of_assemble : image.bodies.size = (Reader.bodyKeys headers).length := by
  obtain ⟨stored, -⟩ := (@Reader.assemble_exact _ _ image.functions.toList image.bodies.toList).mp assembled
  have count := stored.length_eq
  rw [List.length_zip, Reader.length_bodyStops, Nat.min_self, Array.length_toList] at count
  exact count.symm

theorem header_of_assemble {i : Nat} {func : Func} (found : image.functions[i]? = some func) :
    headers[i]? = some func.header := by
  rw [← map_header_of_assemble assembled, List.getElem?_map, Array.getElem?_toList, found]
  rfl

theorem func_of_assemble {i : Nat} {header : FunctionHeader} (found : headers[i]? = some header) :
    ∃ func, image.functions[i]? = some func ∧ func.header = header := by
  rw [← map_header_of_assemble assembled, List.getElem?_map, Array.getElem?_toList] at found
  exact Option.map_eq_some_iff.mp found

theorem header_mem_of_assemble {func : Func} (member : func ∈ image.functions) : func.header ∈ headers := by
  rw [← map_header_of_assemble assembled]
  exact List.mem_map_of_mem (Array.mem_toList_iff.mpr member)

-- A function has the number of the body that its header names.
theorem body_of_assemble (few : (Reader.bodyKeys headers).length ≤ 0x100000000) {func : Func}
    (member : func ∈ image.functions) : func.body.toNat = Reader.bodyNumber headers func.header := by
  obtain ⟨-, each⟩ := (@Reader.assemble_exact _ _ image.functions.toList image.bodies.toList).mp assembled
  obtain ⟨header, listed, trailer, -, rfl⟩ := exists_of_forall₂_right each func (Array.mem_toList_iff.mpr member)
  have small : Reader.bodyNumber headers header < 0x100000000 := by
    have bound := Reader.bodyNumber_lt listed
    omega
  exact toNat_toUInt32_of_lt small

-- The body with a number was read where its key says, up to the end of its space.
theorem readBody_of_assemble {k : Nat} {key : BodyKey} {stop : Nat} (named : (Reader.bodyKeys headers)[k]? = some key)
    (ends : (Reader.bodyStops headers)[k]? = some stop) :
    ∃ body, image.bodies[k]? = some body ∧ Reader.readBody ⟨0, file⟩ key stop = .ok body := by
  obtain ⟨stored, -⟩ := (@Reader.assemble_exact _ _ image.functions.toList image.bodies.toList).mp assembled
  have small : k < image.bodies.size := by
    rw [size_bodies_of_assemble assembled]
    exact (List.getElem?_eq_some_iff.mp named).1
  have slot : ((Reader.bodyKeys headers).zip (Reader.bodyStops headers))[k]? = some (key, stop) :=
    List.getElem?_zip_eq_some.mpr ⟨named, ends⟩
  have body : image.bodies.toList[k]? = some image.bodies[k] := by
    rw [Array.getElem?_toList, Array.getElem?_eq_getElem small]
  exact ⟨image.bodies[k], Array.getElem?_eq_getElem small, getElem?_of_forall₂ stored slot body⟩

-- The end of the space, in terms of the functions.
theorem endsAt_of_assemble (few : (Reader.bodyKeys headers).length ≤ 0x100000000) {func : Func}
    (member : func ∈ image.functions) :
    ∃ stop, (Reader.bodyStops headers)[Reader.bodyNumber headers func.header]? = some stop ∧
      image.EndsAt func.body.toNat stop := by
  have number := body_of_assemble assembled few member
  have small := Reader.bodyNumber_lt (header_mem_of_assemble assembled member)
  have count := size_bodies_of_assemble assembled
  rw [← number] at small ⊢
  by_cases last : func.body.toNat + 1 = (Reader.bodyKeys headers).length
  · obtain ⟨first, rest, rfl⟩ : ∃ first rest, headers = first :: rest := by
      cases headers with
      | nil => cases header_mem_of_assemble assembled member
      | cons first rest => exact ⟨first, rest, rfl⟩
    refine ⟨first.infoOffset.toNat, Reader.bodyStops_last last, ?_, ?_⟩
    · intro next listed follows
      have bound := Reader.bodyNumber_lt (header_mem_of_assemble assembled listed)
      rw [← body_of_assemble assembled few listed] at bound
      omega
    · intro _ func' found
      have same := header_of_assemble assembled found
      rw [List.getElem?_cons_zero, Option.some.injEq] at same
      rw [same]
  · have key := List.getElem?_eq_getElem (show func.body.toNat + 1 < (Reader.bodyKeys headers).length by omega)
    refine ⟨_, Reader.bodyStops_next key, ?_, ?_⟩
    · intro next listed follows
      have named := Reader.getElem?_bodyNumber (header_mem_of_assemble assembled listed)
      rw [← body_of_assemble assembled few listed, follows, key, Option.some.injEq] at named
      rw [named]
      rfl
    · intro only
      omega

theorem byPlace_of_assemble (few : (Reader.bodyKeys headers).length ≤ 0x100000000) : image.ByPlace file := by
  have number {func : Func} := @body_of_assemble _ _ _ assembled few func
  have listed {func : Func} := @header_mem_of_assemble _ _ _ assembled func
  have readAt {func : Func} (member : func ∈ image.functions) : ∃ body stop, image.bodies[func.body.toNat]? = some body ∧
      image.EndsAt func.body.toNat stop ∧
      Reader.readBody ⟨0, file⟩ (Reader.bodyKey func.header) stop = .ok body := by
    obtain ⟨stop, ends, endsAt⟩ := endsAt_of_assemble assembled few member
    obtain ⟨body, found, read⟩ := readBody_of_assemble assembled (Reader.getElem?_bodyNumber (listed member)) ends
    rw [← number member] at found
    exact ⟨body, stop, found, endsAt, read⟩
  refine ⟨?_, ?_, ?_, ?_, ?_⟩
  · intro a left b right
    rw [← UInt32.toNat_inj, number left, number right, Reader.bodyNumber_eq_iff (listed left)]
    exact Prod.mk_inj
  · intro i func found k lower
    rw [number (Array.mem_of_getElem? found)] at lower
    obtain ⟨j, header, earlier, at_j, same⟩ := Reader.used_before (header_of_assemble assembled found) lower
    obtain ⟨other, here, rfl⟩ := func_of_assemble assembled at_j
    exact ⟨j, other, earlier, here, (number (Array.mem_of_getElem? here)).trans same⟩
  · intro k small
    rw [size_bodies_of_assemble assembled] at small
    obtain ⟨header, member, same⟩ := Reader.exists_bodyNumber small
    obtain ⟨i, inside, rfl⟩ := List.mem_iff_getElem.mp member
    obtain ⟨func, here, header⟩ := func_of_assemble assembled (List.getElem?_eq_getElem inside)
    have present := Array.mem_of_getElem? here
    exact ⟨func, present, by rw [number present, header, same]⟩
  · intro func member
    obtain ⟨body, stop, found, -, read⟩ := readAt member
    exact ⟨body, found, slice_of_start.mp (Reader.readBody_parts read).1⟩
  · intro func member body found
    obtain ⟨body', stop, found', endsAt, read⟩ := readAt member
    cases found.symm.trans found'
    refine ⟨_, stop, isLeast_align4 _, endsAt, ?_⟩
    rcases (Reader.readBody_parts read).2 with absent | ⟨tables, present, room, sliced⟩
    · exact .inl absent
    · have size := (Region.slice_ok_iff.mp sliced).2
      rw [← size] at sliced
      exact .inr ⟨tables, present, by omega, by simp only [Reader.bodyKey] at size room ⊢; omega, slice_of_start.mp sliced⟩

end Assembled

-- Whatever file is read, its bodies are told apart by place alone.
theorem bodies_by_place {data : ByteArray} {options : ReadOptions} {image : Image}
    (parsed : Image.parse data options = .ok image) :
    ∃ header table tables, Parsed data options image header table tables ∧
      -- The headers of the functions are those that the function table stands for, in full or by a stub.
      tables.headers.toList.mapM (Reader.resolveHeader (Region.window data 0 header.fileLength.toNat)) =
        .ok (image.functions.toList.map Func.header) ∧
      image.ByPlace (data.extract 0 header.fileLength.toNat) := by
  obtain ⟨header, table, tables, reading⟩ := Image.parse_exact.mp parsed
  obtain ⟨headers, functions, bodies, debugInfo, resolved, assembled, -, rfl⟩ := Tables.finish_exact.mp reading.finished
  have assembled' : Reader.assemble ⟨0, data.extract 0 header.fileLength.toNat⟩ headers =
      .ok ((tables.imageWith functions bodies debugInfo).functions, (tables.imageWith functions bodies debugInfo).bodies) :=
    assembled
  have few : (Reader.bodyKeys headers).length ≤ 0x100000000 := by
    rw [← size_bodies_of_assemble assembled']
    have count := reading.numbered
    omega
  refine ⟨header, table, tables, reading, ?_, byPlace_of_assemble assembled' few⟩
  rw [map_header_of_assemble assembled']
  exact resolved

-- The first and the third function name one place. The second one names code that starts in front of it and runs into it.
def sampleOverlap : ByteArray :=
  ({ fileLength := 212, functionCount := 3 } : Header).encode ++
    Schema.smallHeader.encodeMany (([(180, 2), (177, 4), (180, 2)] : List BodyKey).map fun key =>
      ({ offset := key.1, codeSize := key.2, infoOffset := 192 } : FunctionHeader).toSmall).toArray ++
    ⟨#[0, 1, 2, 3, 4, 5, 6, 7, 8, 9, 10, 11, 12, 13, 14, 15]⟩ ++ zeros digestSize

theorem sampleOverlap_parsed :
    ∃ image, Image.parse sampleOverlap = .ok image ∧ image.functions.map Func.body = #[0, 1, 0] ∧
      image.bodies = #[⟨⟨#[4, 5]⟩, none⟩, ⟨⟨#[1, 2, 3, 4]⟩, some ⟨#[8, 9, 10, 11, 12, 13, 14, 15]⟩⟩] := by
  have read : (Image.parse sampleOverlap).toOption.map (fun image => (image.functions.map Func.body, image.bodies)) =
      some (#[0, 1, 0], #[⟨⟨#[4, 5]⟩, none⟩, ⟨⟨#[1, 2, 3, 4]⟩, some ⟨#[8, 9, 10, 11, 12, 13, 14, 15]⟩⟩]) := by
    decide +kernel
  cases parsed : Image.parse sampleOverlap with
  | error e =>
    rw [parsed] at read
    cases read
  | ok image =>
    rw [parsed] at read
    obtain ⟨functions, bodies⟩ := Prod.mk.inj (Option.some.inj read)
    exact ⟨image, rfl, functions, bodies⟩

theorem sample_bodies_by_place :
    ∃ image header, Image.parse sampleOverlap = .ok image ∧ image.functions.map Func.body = #[0, 1, 0] ∧
      image.bodies = #[⟨⟨#[4, 5]⟩, none⟩, ⟨⟨#[1, 2, 3, 4]⟩, some ⟨#[8, 9, 10, 11, 12, 13, 14, 15]⟩⟩] ∧
      Header.parse sampleOverlap = .ok header ∧ image.ByPlace (sampleOverlap.extract 0 header.fileLength.toNat) := by
  obtain ⟨image, parsed, functions, bodies⟩ := sampleOverlap_parsed
  obtain ⟨header, table, tables, reading, -, byPlace⟩ := bodies_by_place parsed
  exact ⟨image, header, parsed, functions, bodies, reading.header_ok, byPlace⟩

end Image
end CodeImage
