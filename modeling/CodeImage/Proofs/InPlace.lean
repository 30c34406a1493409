import CodeImage.Proofs.Checked

-- The second way of writing an image starts from a file of zeros and puts every part at the place that was planned for
-- it. A part without room there ends the computation with neither a file nor an error.

namespace CodeImage

variable {α : Type}

theorem copyAt?_append {front old part : ByteArray} (same : old.size = part.size) (back : ByteArray) :
    copyAt? (front ++ old ++ back) front.size part = some (front ++ part ++ back) := by
  have first : (front ++ old ++ back).extract 0 front.size = front := by
    have held := ((Holds.prefix_append front old).append_left back).extract
    rwa [Nat.zero_add] at held
  have last : (front ++ old ++ back).extract (front.size + part.size) (front ++ old ++ back).size = back := by
    have held := (Holds.suffix_append (front ++ old) back).extract
    rwa [← ByteArray.size_append, ByteArray.size_append, same] at held
  rw [copyAt?, if_pos, first, last]
  rw [ByteArray.size_append, ByteArray.size_append]
  omega

theorem zeros_append_zeros (m n : Nat) : zeros m ++ zeros n = zeros (m + n) := by
  apply ByteArray.ext
  simp [zeros, ByteArray.data_append]

section Padded

variable {data front part : ByteArray} {n : Nat}

theorem size_paddedTo (room : data.size ≤ n) : (paddedTo data n).size = n := by
  rw [paddedTo, ByteArray.size_append, size_zeros]
  omega

theorem paddedTo_size (data : ByteArray) : paddedTo data data.size = data := by
  rw [paddedTo, Nat.sub_self, zeros_zero, ByteArray.append_empty]

theorem paddedTo_append_zeros {k : Nat} (room : data.size + k ≤ n) : paddedTo (data ++ zeros k) n = paddedTo data n := by
  rw [paddedTo, paddedTo, ByteArray.append_assoc, zeros_append_zeros, ByteArray.size_append, size_zeros]
  congr 2
  omega

theorem paddedTo_padded (room : align4 data.size ≤ n) : paddedTo (padded data) n = paddedTo data n := by
  have := le_align4 data.size
  exact paddedTo_append_zeros (by omega)

-- Where only zeros follow, overwriting them is appending.
theorem copyAt?_paddedTo (room : front.size + part.size ≤ n) (back : ByteArray) :
    copyAt? (paddedTo front n ++ back) front.size part = some (paddedTo (front ++ part) n ++ back) := by
  have split : paddedTo front n = front ++ zeros part.size ++ zeros (n - (front ++ part).size) := by
    rw [paddedTo, ByteArray.append_assoc, zeros_append_zeros, ByteArray.size_append]
    congr 2
    omega
  rw [split, ByteArray.append_assoc, copyAt?_append (size_zeros _), paddedTo, ← ByteArray.append_assoc]

theorem copyAt?_end (room : front.size + part.size ≤ n) :
    copyAt? (paddedTo front n) front.size part = some (paddedTo (front ++ part) n) := by
  have done := copyAt?_paddedTo room ByteArray.empty
  rwa [ByteArray.append_empty, ByteArray.append_empty] at done

theorem slice?_end {len : Nat} (room : front.size + len ≤ n) : slice? (paddedTo front n) front.size len = some (zeros len) := by
  have split : paddedTo front n = front ++ zeros len ++ zeros (n - front.size - len) := by
    rw [paddedTo, ByteArray.append_assoc, zeros_append_zeros]
    congr 2
    omega
  rw [slice?_eq_some_iff, split]
  exact ⟨(Holds.suffix_append front (zeros len)).append_left _, size_zeros len⟩

end Padded

-- Words, one after the other.
def putWords? (out : ByteArray) (pos : Nat) : List UInt32 → Option ByteArray
  | [] => some out
  | word :: rest => (copyAt? out pos (pushWord ByteArray.empty word)).bind fun out => putWords? out (pos + 4) rest

theorem putWords?_end {front : ByteArray} {n : Nat} {words : List UInt32} (room : front.size + 4 * words.length ≤ n) :
    putWords? (paddedTo front n) front.size words = some (paddedTo (front ++ wordBytes words) n) := by
  induction words generalizing front with
  | nil =>
    rw [putWords?]
    exact congrArg some (congrArg (paddedTo · n) ByteArray.append_empty.symm)
  | cons word rest ih =>
    have size : (front ++ pushWord ByteArray.empty word).size = front.size + 4 := by
      rw [ByteArray.size_append, size_pushWord]
      rfl
    rw [List.length_cons] at room
    rw [putWords?, copyAt?_end (by rw [size_pushWord]; simp; omega), Option.bind_some, ← size, ih (by omega),
      wordBytes_cons, ByteArray.append_assoc]

namespace Layout

-- Writing all fields of a record never stops early.
theorem foldl_write {layout : Layout} (packed : layout.Packed) {values : List UInt32} {start : Nat} {data : ByteArray}
    (room : layout.byteSize ≤ data.size) (count : start + values.length ≤ layout.fields.length) :
    (values.zipIdx start).foldl (fun (data, going) (value, index) =>
      if going then
        match layout.write? data index value with
        | some data => (data, true)
        | none => (data, false)
      else (data, false)) (data, true) =
        (writeFields data 0 ((layout.fields.drop start).zip values), true) := by
  induction values generalizing start data with
  | nil => simp [writeFields]
  | cons value rest ih =>
    rw [List.length_cons] at count
    have inside : start < layout.fields.length := by omega
    have within := packed.within _ (List.getElem_mem inside)
    have written : layout.write? data start value = some ((layout.fields[start]).write data 0 value) := by
      rw [write?, List.getElem?_eq_getElem inside]
      exact if_pos (by omega)
    rw [List.zipIdx_cons, List.foldl_cons, List.drop_eq_getElem_cons inside, List.zip_cons_cons, writeFields_cons]
    simp only [written, if_true]
    exact ih (by rw [Field.size_write]; exact room) (by omega)

theorem writeAll_eq {layout : Layout} (packed : layout.Packed) {values : List UInt32} {data : ByteArray}
    (room : layout.byteSize ≤ data.size) (count : values.length = layout.fields.length) :
    layout.writeAll data values = (layout.encode data 0 values, true) := by
  rw [encode_eq_writeFields]
  exact foldl_write packed room (by omega)

end Layout

namespace Schema

def writeMany? (schema : Schema α) (out : ByteArray) (pos : Nat) (records : List α) : Checked ByteArray :=
  if out.size < pos + records.length * schema.size then
    throw (.unexpectedEnd pos (records.length * schema.size) out.size)
  else access (schema.put? out pos records)

variable {schema : Schema α} {front : ByteArray} {n : Nat}

theorem encodeMany_cons (schema : Schema α) (record : α) (rest : List α) :
    schema.encodeMany (record :: rest).toArray = schema.encode record ++ schema.encodeMany rest.toArray := by
  have grows (records : List α) (out : ByteArray) :
      records.foldl (fun out record => out ++ schema.encode record) out =
        out ++ records.foldl (fun out record => out ++ schema.encode record) ByteArray.empty := by
    induction records generalizing out with
    | nil => simp
    | cons first others ih =>
      rw [List.foldl_cons, List.foldl_cons, ih, ih (ByteArray.empty ++ _), ByteArray.empty_append, ByteArray.append_assoc]
  rw [encodeMany_eq_foldl, encodeMany_eq_foldl, List.foldl_cons, grows, ByteArray.empty_append]

theorem put?_end (lawful : schema.Lawful) {records : List α} (room : front.size + records.length * schema.size ≤ n) :
    schema.put? (paddedTo front n) front.size records = some (paddedTo (front ++ schema.encodeMany records.toArray) n) := by
  induction records generalizing front with
  | nil =>
    rw [put?]
    exact congrArg some (congrArg (paddedTo · n) ByteArray.append_empty.symm)
  | cons record rest ih =>
    rw [List.length_cons, Nat.add_mul, Nat.one_mul] at room
    have size : (front ++ schema.encode record).size = front.size + schema.size := by
      rw [ByteArray.size_append, size_encode]
    have written : schema.layout.writeAll (zeros schema.size) (schema.toWords record) = (schema.encode record, true) :=
      Layout.writeAll_eq lawful.packed (Nat.le_of_eq (size_zeros _).symm) (lawful.count record)
    have copied : copyAt? (paddedTo front n) front.size (schema.encode record) =
        some (paddedTo (front ++ schema.encode record) n) := copyAt?_end (by rw [size_encode]; omega)
    have later : schema.put? (paddedTo (front ++ schema.encode record) n) (front ++ schema.encode record).size rest =
        some (paddedTo (front ++ schema.encode record ++ schema.encodeMany rest.toArray) n) := ih (by omega)
    rw [size] at later
    rw [put?, slice?_end (by omega), encodeMany_cons, ← ByteArray.append_assoc, ← later]
    simp only [written, copied, guard, if_true, Option.bind_eq_bind, Option.bind_some]
    rfl

theorem writeMany?_end (lawful : schema.Lawful) {records : List α}
    (room : front.size + records.length * schema.size ≤ n) :
    schema.writeMany? (paddedTo front n) front.size records =
      inRange (.ok (paddedTo (front ++ schema.encodeMany records.toArray) n)) := by
  rw [writeMany?, size_paddedTo (by omega), if_neg (by omega), put?_end lawful room, access_some]

end Schema

namespace Writer

-- A segment at its place.
def fill? (image : Image) (placements : List Placement) (out : ByteArray) (pos : Nat) : Segment → Checked ByteArray
  | .functionHeaders => Schema.smallHeader.writeMany? out pos (placements.map smallRecord)
  | .stringKinds => Schema.kindRun.writeMany? out pos image.strings.kindRuns.toList
  | .identifierHashes => Schema.identifierHash.writeMany? out pos image.identifierHashes.toList
  | .stringTable => Schema.stringSlot.writeMany? out pos image.strings.encode.1.toList
  | .overflowStringTable => Schema.extent.writeMany? out pos image.strings.encode.2.toList
  | .stringStorage => access (copyAt? out pos image.strings.storage)
  | .arrayBuffer => access (copyAt? out pos image.arrayBuffer)
  | .objectKeyBuffer => access (copyAt? out pos image.objectKeyBuffer)
  | .objectValueBuffer => access (copyAt? out pos image.objectValueBuffer)
  | .bigIntTable => Schema.extent.writeMany? out pos image.bigInts.entries.toList
  | .bigIntStorage => access (copyAt? out pos image.bigInts.storage)
  | .regExpTable => Schema.extent.writeMany? out pos image.regExps.entries.toList
  | .regExpStorage => access (copyAt? out pos image.regExps.storage)
  | .cjsModuleTable => Schema.extent.writeMany? out pos image.cjsModules.toList
  | .functionSourceTable => Schema.functionSource.writeMany? out pos image.functionSources.toList

-- The code of a body, and its jump tables at the next multiple of four.
def putBody? (out : ByteArray) (pos : Nat) (body : Body) : Option ByteArray :=
  (copyAt? out pos body.code).bind fun out =>
    match body.jumpTables with
    | none => some out
    | some tables => copyAt? out (align4 (pos + body.code.size)) tables

-- The header of a function in full, if a stub points to it.
def fullBytes (header : FunctionHeader) : ByteArray :=
  if header.overflowed then Schema.largeHeader.encode header.toLarge else ByteArray.empty

def putFull? (out : ByteArray) (header : FunctionHeader) : Checked ByteArray :=
  if header.overflowed then Schema.largeHeader.writeMany? out header.infoOffset.toNat [header.toLarge] else pure out

def putTrailer? (out : ByteArray) (func : Func) (header : FunctionHeader) : Checked ByteArray := do
  let handlers := (func.handlers.map handlerWords).getD []
  let debug := (func.debug.map debugWords).getD []
  let out ← putFull? out header
  let out ← access (putWords? out (Reader.trailerStart header) handlers)
  access (putWords? out (Reader.trailerStart header + 4 * handlers.length) debug)

-- The first function to use a body brings it along.
def putOwnBody? (image : Image) (out : ByteArray) (func : Func) (p : Placement) : Checked ByteArray :=
  if p.body.isSome then do
    let body ← access image.bodies[func.body.toNat]?
    access (putBody? out p.header.offset.toNat body)
  else pure out

def putFunction? (image : Image) (out : ByteArray) (pair : Func × Placement) : Checked ByteArray := do
  let out ← putOwnBody? image out pair.1 pair.2
  putTrailer? out pair.1 pair.2.header

def putDebugInfo? (image : Image) (header : Header) (out : ByteArray) : Checked ByteArray :=
  match image.debugInfo with
  | none => pure out
  | some info => access (copyAt? out header.debugInfoOffset.toNat info)

-- The digest of everything before it, at the end.
def sign? (out : ByteArray) : Checked ByteArray := do
  let front ← access (slice? out 0 (out.size - digestSize))
  access (copyAt? out (out.size - digestSize) (Digest.of front).bytes)

def fillFile? (image : Image) (header : Header) (table : SegmentTable) (placements : List Placement) :
    Checked ByteArray := do
  let out ← inRange (header.write (zeros header.fileLength.toNat))
  let out ← table.placed.foldlM (fun out p => fill? image placements out p.offset p.segment) out
  let out ← (image.functions.toList.zip placements).foldlM (putFunction? image) out
  let out ← putDebugInfo? image header out
  sign? out

variable {image : Image} {placements : List Placement} {front : ByteArray} {n : Nat}

theorem writeMany?_array {schema : Schema α} (lawful : schema.Lawful) {records : Array α}
    (room : front.size + (schema.encodeMany records).size ≤ n) :
    schema.writeMany? (paddedTo front n) front.size records.toList =
      inRange (.ok (paddedTo (front ++ schema.encodeMany records) n)) := by
  rw [Schema.size_encodeMany] at room
  exact Schema.writeMany?_end lawful room

theorem access_copyAt? {part : ByteArray} (room : front.size + part.size ≤ n) :
    access (copyAt? (paddedTo front n) front.size part) = inRange (.ok (paddedTo (front ++ part) n)) := by
  rw [copyAt?_end room, access_some]

theorem fill?_end (segment : Segment) (room : front.size + (Writer.segment image placements segment).size ≤ n) :
    fill? image placements (paddedTo front n) front.size segment =
      inRange (.ok (paddedTo (front ++ Writer.segment image placements segment) n)) := by
  cases segment with
  | functionHeaders => exact writeMany?_array Schema.smallHeader_lawful room
  | stringKinds => exact writeMany?_array Schema.kindRun_lawful room
  | identifierHashes => exact writeMany?_array Schema.identifierHash_lawful room
  | stringTable => exact writeMany?_array Schema.stringSlot_lawful room
  | overflowStringTable => exact writeMany?_array Schema.extent_lawful room
  | bigIntTable => exact writeMany?_array Schema.extent_lawful room
  | regExpTable => exact writeMany?_array Schema.extent_lawful room
  | cjsModuleTable => exact writeMany?_array Schema.extent_lawful room
  | functionSourceTable => exact writeMany?_array Schema.functionSource_lawful room
  | stringStorage => exact access_copyAt? room
  | arrayBuffer => exact access_copyAt? room
  | objectKeyBuffer => exact access_copyAt? room
  | objectValueBuffer => exact access_copyAt? room
  | bigIntStorage => exact access_copyAt? room
  | regExpStorage => exact access_copyAt? room

theorem foldlM_fill? {header : Header} {cursor stop : Nat} {segments : List Segment} {placed : List Placed}
    (done : SegmentTable.place header cursor segments = .ok (placed, stop))
    (sizes : ∀ s : Segment, (segment image placements s).size = s.size header) (size : front.size = cursor)
    (room : stop ≤ n) :
    placed.foldlM (fun out p => fill? image placements out p.offset p.segment) (paddedTo front n) =
      inRange (.ok (paddedTo (segments.foldl (fun out s => padded (out ++ segment image placements s)) front) n)) := by
  induction segments generalizing cursor placed front with
  | nil =>
    cases done
    rfl
  | cons s rest ih =>
    obtain ⟨-, later, more, rfl⟩ := SegmentTable.place_cons_ok done
    have reached : (front ++ segment image placements s).size = cursor + s.size header := by
      rw [ByteArray.size_append, size, sizes]
    have low := (SegmentTable.bounds_of_place more).1
    have above := le_align4 (cursor + s.size header)
    have here : fill? image placements (paddedTo front n) front.size s =
        inRange (.ok (paddedTo (front ++ segment image placements s) n)) :=
      fill?_end s (by rw [← ByteArray.size_append]; omega)
    rw [size] at here
    rw [List.foldlM_cons, here, ok_inRange_bind, ← paddedTo_padded (by rw [reached]; omega)]
    exact ih more (by rw [size_padded, reached])

theorem putBody?_end {body : Body} (room : Placement.bodyStop front.size body ≤ n) (back : ByteArray) :
    putBody? (paddedTo front n ++ back) front.size body = some (paddedTo (appendBody front body) n ++ back) := by
  unfold putBody? appendBody
  unfold Placement.bodyStop at room
  cases tables : body.jumpTables with
  | none =>
    rw [tables] at room
    rw [copyAt?_paddedTo room, Option.bind_some]
  | some bytes =>
    rw [tables] at room
    have above := le_align4 (front.size + body.code.size)
    have size : (padded (front ++ body.code)).size = align4 (front.size + body.code.size) := by
      rw [size_padded, ByteArray.size_append]
    have code : (front ++ body.code).size = front.size + body.code.size := ByteArray.size_append
    simp only at room
    rw [copyAt?_paddedTo (by omega), Option.bind_some, ← paddedTo_padded (by rw [code]; omega), ← size]
    exact copyAt?_paddedTo (by omega) back

theorem putFull?_end {header : FunctionHeader} (here : header.infoOffset.toNat = front.size)
    (room : front.size + (fullBytes header).size ≤ n) :
    putFull? (paddedTo front n) header = inRange (.ok (paddedTo (front ++ fullBytes header) n)) ∧
      Reader.trailerStart header = (front ++ fullBytes header).size := by
  unfold fullBytes at room ⊢
  unfold putFull? Reader.trailerStart
  cases out : header.overflowed with
  | true =>
    have single : Schema.largeHeader.encodeMany [header.toLarge].toArray = Schema.largeHeader.encode header.toLarge := by
      rw [Schema.encodeMany_cons]
      exact ByteArray.append_empty
    rw [out, if_pos rfl, ← single] at room
    simp only [if_true]
    refine ⟨?_, by rw [ByteArray.size_append, Schema.size_encode, here]⟩
    rw [here, ← single]
    exact writeMany?_array Schema.largeHeader_lawful room
  | false =>
    simp only [Bool.false_eq_true, if_false, ByteArray.append_empty]
    exact ⟨rfl, here⟩

theorem putTrailer?_end {func : Func} {header : FunctionHeader} (here : header.infoOffset.toNat = front.size)
    (room : front.size + (trailerBytes func header).size ≤ n) :
    putTrailer? (paddedTo front n) func header = inRange (.ok (paddedTo (front ++ trailerBytes func header) n)) := by
  have bytes : trailerBytes func header = fullBytes header ++ wordBytes ((func.handlers.map handlerWords).getD []) ++
      wordBytes ((func.debug.map debugWords).getD []) := rfl
  rw [bytes, ByteArray.size_append, ByteArray.size_append, size_wordBytes, size_wordBytes] at room
  obtain ⟨full, start⟩ := putFull?_end (n := n) here (by omega)
  have first : (front ++ fullBytes header).size = front.size + (fullBytes header).size := ByteArray.size_append
  have second : (front ++ fullBytes header ++ wordBytes ((func.handlers.map handlerWords).getD [])).size =
      (front ++ fullBytes header).size + 4 * ((func.handlers.map handlerWords).getD []).length := by
    rw [ByteArray.size_append, size_wordBytes]
  rw [putTrailer?, full, ok_inRange_bind, start, putWords?_end (by omega), access_some, ok_inRange_bind, ← second,
    putWords?_end (by omega), access_some, bytes, ← ByteArray.append_assoc, ← ByteArray.append_assoc]

-- Bodies grow behind the segments and trailers behind the bodies, with zeros between them and at the end.
def stage (bodies : ByteArray) (gap : Nat) (trailers : ByteArray) (n : Nat) : ByteArray :=
  paddedTo (paddedTo bodies gap ++ trailers) n

section Stage

variable {bodies trailers : ByteArray} {gap : Nat} {func : Func} {p : Placement}

theorem putOwnBody?_of_none (none : p.body = none) (out : ByteArray) :
    putOwnBody? image out func p = inRange (.ok out) := by
  rw [putOwnBody?, none]
  rfl

theorem putOwnBody?_of_some {body : Body} (own : p.body = some body)
    (found : image.bodies[func.body.toNat]? = some body) (here : p.header.offset.toNat = bodies.size)
    (room : Placement.bodyStop bodies.size body ≤ gap) :
    putOwnBody? image (stage bodies gap trailers n) func p =
      inRange (.ok (stage (appendBody bodies body) gap trailers n)) := by
  have size : (appendBody bodies body).size = Placement.bodyStop bodies.size body := by
    rw [appendBody_eq, ByteArray.size_append, size_bodyBytes]
  have low : bodies.size ≤ gap := by
    rw [← size_bodyBytes] at room
    omega
  have ends : (paddedTo (appendBody bodies body) gap ++ trailers).size = (paddedTo bodies gap ++ trailers).size := by
    rw [ByteArray.size_append, ByteArray.size_append, size_paddedTo (by omega), size_paddedTo low]
  unfold stage
  rw [putOwnBody?, own, Option.isSome_some, if_pos rfl, found, access_some, ok_inRange_bind, here,
    paddedTo.eq_def (paddedTo bodies gap ++ trailers), ByteArray.append_assoc, putBody?_end room, access_some,
    paddedTo.eq_def (paddedTo (appendBody bodies body) gap ++ trailers), ends, ByteArray.append_assoc]

-- The trailer of the next function follows those of the functions before it.
theorem putTrailer?_stage (bodies : ByteArray) {ps : List Placement} {last : Nat}
    (placed : Placement.placeTrailers (gap + trailers.size) (p :: ps) = .ok (p :: ps, last))
    (trailer : p.trailerSize = Placement.sizeOfTrailer func) (low : bodies.size ≤ gap) (room : last ≤ n) :
    putTrailer? (stage bodies gap trailers n) func p.header =
        inRange (.ok (stage bodies gap (appendTrailer trailers func p) n)) ∧
      Placement.placeTrailers (gap + (appendTrailer trailers func p).size) ps = .ok (ps, last) := by
  obtain ⟨bound, _, next, again⟩ := Placement.placeTrailers_cons_ok.mp placed
  obtain ⟨head, rfl⟩ := List.cons.inj again
  have here : p.header.infoOffset.toNat = gap + trailers.size := by
    rw [head]
    exact toNat_toUInt32_of_lt bound
  have bytes := size_trailerBytes trailer
  have high := Placement.placeTrailers_le next
  have size : (paddedTo bodies gap ++ trailers).size = gap + trailers.size := by
    rw [ByteArray.size_append, size_paddedTo low]
  have grown : (appendTrailer trailers func p).size = trailers.size + p.room := by
    rw [appendTrailer_eq, ByteArray.size_append, bytes]
  rw [grown, ← Nat.add_assoc]
  refine ⟨?_, next⟩
  rw [stage, putTrailer?_end (by omega) (by omega), stage, appendTrailer_eq, ByteArray.append_assoc]

end Stage

-- What a run over the functions leaves behind.
theorem foldlM_putFunction? {known : UInt32 → Option UInt32} {offset stop : Nat} {functions : List Func}
    {base : List Placement} {entries : List Entry} (placing : Placing image known offset functions base entries stop)
    (same : placements.map Placement.base = base.map Placement.base) {bodies trailers : ByteArray} {gap last : Nat}
    (placed : Placement.placeTrailers (gap + trailers.size) placements = .ok (placements, last))
    (size : bodies.size = offset) (low : stop ≤ gap) (room : last ≤ n) :
    (functions.zip placements).foldlM (putFunction? image) (stage bodies gap trailers n) =
      inRange (.ok (stage ((placements.filterMap (·.body)).foldl appendBody bodies) gap
        ((functions.zip placements).foldl (fun out (func, p) => appendTrailer out func p) trailers) n)) := by
  induction placing generalizing placements bodies trailers with
  | nil =>
    obtain rfl : placements = [] := by simpa using same
    rfl
  | @shared known offset stop func rest others entries start body found small old later ih =>
    cases placements with
    | nil => cases same
    | cons p ps =>
      obtain ⟨own, others⟩ := List.cons.inj same
      have none : p.body = none := congrArg Placement.body own
      have below := later.laid.le_stop
      obtain ⟨put, next⟩ := putTrailer?_stage bodies placed (congrArg Placement.trailerSize own) (by omega) room
      rw [List.zip_cons_cons, List.foldlM_cons, putFunction?, putOwnBody?_of_none none, ok_inRange_bind, put,
        ok_inRange_bind, ih others next size low, List.filterMap_cons_none none, List.foldl_cons]
  | @fresh known offset stop func rest others entries start body found small new here later ih =>
    cases placements with
    | nil => cases same
    | cons p ps =>
      obtain ⟨own, others⟩ := List.cons.inj same
      have some : p.body = some body := congrArg Placement.body own
      have place : p.header.offset = start := congrArg (fun q : Placement => q.header.offset) own
      have below := later.laid.le_stop
      have grown : (appendBody bodies body).size = Placement.bodyStop offset body := by
        rw [appendBody_eq, ByteArray.size_append, size_bodyBytes, size]
      obtain ⟨put, next⟩ := putTrailer?_stage (appendBody bodies body) placed
        (congrArg Placement.trailerSize own) (by omega) room
      rw [List.zip_cons_cons, List.foldlM_cons, putFunction?,
        putOwnBody?_of_some some found (by rw [place, here, size]) (by rw [size]; omega), ok_inRange_bind, put,
        ok_inRange_bind, ih others next grown low, List.filterMap_cons_some some, List.foldl_cons, List.foldl_cons]

theorem foldl_appendTrailer (front trailers : ByteArray) (pairs : List (Func × Placement)) :
    pairs.foldl (fun out (func, p) => appendTrailer out func p) (front ++ trailers) =
      front ++ pairs.foldl (fun out (func, p) => appendTrailer out func p) trailers := by
  induction pairs generalizing trailers with
  | nil => rfl
  | cons pair rest ih =>
    obtain ⟨func, p⟩ := pair
    have step : appendTrailer (front ++ trailers) func p = front ++ appendTrailer trailers func p := by
      rw [appendTrailer_eq, appendTrailer_eq, ByteArray.append_assoc]
    simp only [List.foldl_cons, step, ih]

theorem write_zeros (header : Header) (long : headerSize ≤ n) :
    header.write (zeros n) = .ok (paddedTo header.encode n) := by
  have rest : (zeros n).extract headerSize n = zeros (n - header.encode.size) := by
    rw [Header.size_encode]
    apply ByteArray.ext
    simp [zeros, headerSize]
  rw [Header.write, size_zeros, if_neg (Nat.not_lt.mpr long), rest]
  rfl

theorem sign?_eq {out : ByteArray} (size : out.size + digestSize = n) :
    sign? (paddedTo out n) = inRange (.ok (signed out)) := by
  have whole : (signed out).size = n := by rw [signed, ByteArray.size_append, Digest.size_bytes, size]
  have ends : n - digestSize = out.size := by omega
  have front : slice? (paddedTo out n) 0 out.size = some out :=
    slice?_eq_some_iff.mpr ⟨Holds.prefix_append _ _, rfl⟩
  rw [sign?, size_paddedTo (by omega), ends, front, access_some, ok_inRange_bind,
    access_copyAt? (by rw [Digest.size_bytes]; omega)]
  exact congrArg (fun file => inRange (.ok file)) (whole ▸ paddedTo_size (signed out))

end Writer

namespace FilePlan

-- What a file consists of up to the bodies, up to the trailers and up to the debug information.
def segmentPart (plan : FilePlan) (image : Image) : ByteArray :=
  Segment.all.foldl (fun out s => padded (out ++ Writer.segment image plan.placements s)) plan.header.encode

def bodyPart (plan : FilePlan) (image : Image) : ByteArray :=
  (plan.placements.filterMap (·.body)).foldl Writer.appendBody (plan.segmentPart image)

def trailerPart (plan : FilePlan) (image : Image) : ByteArray :=
  (image.functions.toList.zip plan.placements).foldl (fun out (func, p) => Writer.appendTrailer out func p)
    (padded (plan.bodyPart image))

variable {plan : FilePlan} {image : Image} {version : Option UInt32}

namespace Serves

theorem size_segment (serves : plan.Serves image version) (segment : Segment) :
    (Writer.segment image plan.placements segment).size = segment.size plan.header :=
  Writer.size_segment serves.describes.counts serves.length_placements segment

theorem size_segmentPart (serves : plan.Serves image version) : (plan.segmentPart image).size = plan.table.codeStart :=
  (SegmentTable.holds_of_place (SegmentTable.ofHeader_ok_iff.mp serves.segments) (fun s _ => serves.size_segment s)
    (Header.size_encode plan.header)).1

theorem size_bodyPart (serves : plan.Serves image version) : (plan.bodyPart image).size = plan.bodyEnd := by
  rw [bodyPart, serves.bodies_eq]
  exact (Writer.holds_bodies serves.placing.laid serves.size_segmentPart).1

theorem size_trailerPart (serves : plan.Serves image version) : (plan.trailerPart image).size = plan.stop := by
  have whole : (plan.contents image).size =
      (plan.trailerPart image).size + (image.debugInfo.getD ByteArray.empty).size := ByteArray.size_append
  have := serves.filled.size
  omega

-- Every part has room at its place, and between the parts there are only zeros.
section Steps

variable {n : Nat}

theorem fill_segments (serves : plan.Serves image version) (room : plan.table.codeStart ≤ n) :
    plan.table.placed.foldlM (fun out p => Writer.fill? image plan.placements out p.offset p.segment)
      (paddedTo plan.header.encode n) = inRange (.ok (paddedTo (plan.segmentPart image) n)) :=
  Writer.foldlM_fill? (SegmentTable.ofHeader_ok_iff.mp serves.segments) serves.size_segment
    (Header.size_encode plan.header) room

theorem put_functions (serves : plan.Serves image version) (room : plan.stop ≤ n) :
    (image.functions.toList.zip plan.placements).foldlM (Writer.putFunction? image)
      (paddedTo (plan.segmentPart image) n) = inRange (.ok (paddedTo (plan.trailerPart image) n)) := by
  obtain ⟨-, low, above, last⟩ := serves.codeStart_le
  have segmentsEnd := serves.size_segmentPart
  have before : paddedTo (plan.segmentPart image) n =
      Writer.stage (plan.segmentPart image) (align4 plan.bodyEnd) ByteArray.empty n := by
    rw [Writer.stage, ByteArray.append_empty]
    exact (paddedTo_append_zeros (by omega)).symm
  have after : Writer.stage (plan.bodyPart image) (align4 plan.bodyEnd)
      ((image.functions.toList.zip plan.placements).foldl (fun out (func, p) => Writer.appendTrailer out func p)
        ByteArray.empty) n = paddedTo (plan.trailerPart image) n := by
    rw [Writer.stage, ← Writer.foldl_appendTrailer, ByteArray.append_empty, ← serves.size_bodyPart]
    rfl
  rw [before, ← after]
  exact Writer.foldlM_putFunction? serves.placing serves.map_base (Placement.settle_spec serves.settled).1 segmentsEnd
    above room

theorem put_debugInfo (serves : plan.Serves image version)
    (room : plan.stop + (image.debugInfo.getD ByteArray.empty).size ≤ n) :
    Writer.putDebugInfo? image plan.header (paddedTo (plan.trailerPart image) n) =
      inRange (.ok (paddedTo (plan.contents image) n)) := by
  have whole : plan.contents image = plan.trailerPart image ++ image.debugInfo.getD ByteArray.empty := rfl
  have offset := serves.debug
  unfold Writer.putDebugInfo? Writer.debugOffset at *
  cases found : image.debugInfo with
  | none =>
    rw [whole, found, Option.getD_none, ByteArray.append_empty]
    rfl
  | some info =>
    rw [found, Option.isSome_some, if_pos rfl] at offset
    rw [found, Option.getD_some] at room
    simp only
    rw [whole, found, Option.getD_some, toNat_of_toWord offset, ← serves.size_trailerPart,
      Writer.access_copyAt? (by rw [serves.size_trailerPart]; exact room)]

end Steps

theorem fillFile?_eq (serves : plan.Serves image version) :
    Writer.fillFile? image plan.header plan.table plan.placements =
      inRange (.ok (Writer.signed (plan.contents image))) := by
  obtain ⟨high, low, above, last⟩ := serves.codeStart_le
  have size := serves.filled.size
  have length := serves.size_contents
  rw [Writer.fillFile?, Writer.write_zeros plan.header (by omega), ok_inRange_bind, serves.fill_segments (by omega),
    ok_inRange_bind, serves.put_functions (by omega), ok_inRange_bind, serves.put_debugInfo (by omega), ok_inRange_bind,
    Writer.sign?_eq length]

end Serves
end FilePlan

namespace Writer

-- The first pass: all that the second one needs to know.
def planned (image : Image) (version : Option UInt32) : Except ImageError (Header × SegmentTable × List Placement) := do
  let header ← Writer.header image version
  let table ← SegmentTable.ofHeader header
  let placed ← Placement.plan image table.codeStart
  let debugInfoOffset ← debugOffset image placed.2
  let fileLength ← toWord "file" (placed.2 + (image.debugInfo.getD ByteArray.empty).size + digestSize)
  return ({ header with debugInfoOffset, fileLength }, table, placed.1)

theorem planned_serves {image : Image} {version : Option UInt32} {header : Header} {table : SegmentTable}
    {placements : List Placement} (done : planned image version = .ok (header, table, placements)) :
    ∃ plan : FilePlan, plan.Serves image version ∧ plan.header = header ∧ plan.table = table ∧
      plan.placements = placements := by
  obtain ⟨first, made, more⟩ := bind_ok_iff.mp done
  obtain ⟨_, segments, more⟩ := bind_ok_iff.mp more
  obtain ⟨⟨placements, stop⟩, placed, more⟩ := bind_ok_iff.mp more
  obtain ⟨debugInfoOffset, debug, more⟩ := bind_ok_iff.mp more
  obtain ⟨fileLength, length, last⟩ := bind_ok_iff.mp more
  obtain ⟨base, entries, bodyEnd, placing, settled⟩ := Placement.plan_exact.mp placed
  cases last
  refine ⟨⟨_, table, base, entries, bodyEnd, placements, stop⟩, ⟨?_, ?_, placing, settled, debug, length⟩, rfl, rfl, rfl⟩
  · rw [made]
    exact congrArg Except.ok (header_places made)
  · rw [← segments]
    exact SegmentTable.ofHeader_congr (Segment.size_update first debugInfoOffset fileLength)

end Writer

-- The file of an image, put together in place.
def Image.writeInPlace? (image : Image) (version : Option UInt32 := none) : Checked ByteArray := do
  let planned ← inRange (Writer.planned image version)
  Writer.fillFile? image planned.1 planned.2.1 planned.2.2

-- Both ways of writing agree on every image, and the second one never leaves the file.
theorem Image.writeInPlace?_eq (image : Image) (version : Option UInt32) :
    image.writeInPlace? version = inRange (image.write version) := by
  have parts : image.write version = (do
      let planned ← Writer.planned image version
      return Writer.signed (Writer.contents image planned.1 planned.2.2)) := by
    rw [Image.write_eq, Writer.planned]
    simp only [bind_assoc, pure_bind]
  rw [Image.writeInPlace?, parts]
  refine inRange_bind fun planned done => ?_
  obtain ⟨plan, serves, same⟩ := Writer.planned_serves done
  obtain ⟨header, table, placements⟩ := same
  rw [← header, ← table, ← placements, serves.fillFile?_eq]
  rfl

end CodeImage
