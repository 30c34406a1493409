import CodeImage.Proofs.RoundTrip

namespace CodeImage

-- With jump tables that are absent or not empty, the bodies that are read fill the same bytes.
theorem Writer.padded_foldl_readBack {offset stop : Nat} {entries : List Entry} (laid : Laid offset entries stop)
    (plain : ∀ e ∈ entries, e.body.Plain) {out : ByteArray} (size : out.size = offset) :
    padded ((readBack (align4 stop) entries).foldl appendBody out) =
      padded ((entries.map Entry.body).foldl appendBody out) := by
  induction entries generalizing offset out with
  | nil => rfl
  | cons e rest ih =>
    obtain ⟨here, others⟩ := List.forall_mem_cons.mp plain
    have grown : (appendBody out e.body).size = e.stop := by
      rw [appendBody_eq, ByteArray.size_append, size_bodyBytes, size, ← laid.1, Entry.stop]
    cases rest with
    | nil =>
      obtain rfl : e.stop = stop := laid.2.2
      rw [readBack, nextStart, readBack, List.foldl_cons, List.foldl_nil, List.map_cons, List.map_nil, List.foldl_cons,
        List.foldl_nil, Body.filled_of_plain here]
      cases present : e.body.jumpTables with
      | none =>
        rw [Option.map_none, ← present]
      | some tables =>
        have longer : appendBody out { e.body with jumpTables := some (tables ++ zeros (align4 e.stop - e.stop)) } =
            padded (appendBody out e.body) := by
          rw [padded, grown, appendBody, appendBody, present, ByteArray.append_assoc]
        rw [Option.map_some, longer, padded_of_mod (by rw [size_padded]; exact align4_mod _)]
    | cons next rest =>
      have tight : nextStart (align4 stop) (next :: rest) - e.stop = 0 := by
        rw [nextStart, laid.2.2.1, Nat.sub_self]
      rw [readBack, tight, Body.filled_zero here, List.foldl_cons, List.map_cons, List.foldl_cons]
      exact ih laid.2.2 others grown

-- A function as it is placed when it was read, but for its body.
def Placement.ofRead (func : Func) : Placement :=
  ⟨{ func.header with
      infoOffset := 0, overflowed := false
      hasExceptionHandler := func.handlers.isSome, hasDebugInfo := func.debug.isSome },
    none, sizeOfTrailer func⟩

theorem ofRead_eq {func : Func} {body : Body} (size : func.header.codeSize = body.code.size.toUInt32) :
    (⟨placedHeader func func.header.offset body, none, Placement.sizeOfTrailer func⟩ : Placement) =
      Placement.ofRead func := by
  rw [Placement.ofRead, placedHeader, ← size]

-- The places of the bodies seen so far.
def knownAt (seen : List BodyKey) (id : UInt32) : Option UInt32 := (seen[id.toNat]?).map (·.1)

theorem update_knownAt {seen : List BodyKey} (key : BodyKey) (few : seen.length < 0x100000000) :
    Function.update (knownAt seen) seen.length.toUInt32 (some key.1) = knownAt (seen ++ [key]) := by
  have count : seen.length.toUInt32.toNat = seen.length := by rw [toNat_toUInt32_of_lt few]
  funext id
  by_cases same : id = seen.length.toUInt32
  · rw [same, Function.update_self, knownAt, count]
    simp
  · have other : id.toNat ≠ seen.length := by
      intro equal
      apply same
      apply UInt32.toNat_inj.mp
      rw [equal, count]
    rw [Function.update_of_ne same, knownAt, knownAt]
    by_cases inside : id.toNat < seen.length
    · rw [List.getElem?_append_left inside]
    · rw [List.getElem?_eq_none (by omega), List.getElem?_eq_none (by simp; omega)]

-- A body that is read back ends where its entry does, up to alignment, and exactly there if another one follows.
theorem Laid.bodyStop_filled {offset stop : Nat} {e : Entry} {rest : List Entry} (laid : Laid offset (e :: rest) stop)
    (plain : e.body.Plain) :
    ∃ stop', Laid (Placement.bodyStop offset (e.body.filled (nextStart (align4 stop) rest - e.stop))) rest stop' ∧
      align4 stop' = align4 stop ∧ readBack (align4 stop') rest = readBack (align4 stop) rest := by
  obtain ⟨start, -, later⟩ := laid
  cases rest with
  | nil =>
    obtain rfl : e.stop = stop := later
    refine ⟨_, rfl, ?_, rfl⟩
    rw [Body.filled_of_plain plain, nextStart, ← start]
    cases present : e.body.jumpTables with
    | none => rw [Entry.stop, Option.map_none, Placement.bodyStop, Placement.bodyStop, present]
    | some tables =>
      have above := le_align4 e.stop
      have stop : e.stop = align4 (e.start.toNat + e.body.code.size) + tables.size := by
        rw [Entry.stop, Placement.bodyStop, present]
      have last : align4 (e.start.toNat + e.body.code.size) + (tables ++ zeros (align4 e.stop - e.stop)).size =
          align4 e.stop := by
        rw [ByteArray.size_append, size_zeros]
        omega
      rw [Option.map_some, Placement.bodyStop]
      simp only
      rw [last, align4_align4]
  | cons next rest =>
    have tight : nextStart (align4 stop) (next :: rest) - e.stop = 0 := by
      rw [nextStart, later.1, Nat.sub_self]
    refine ⟨stop, ?_, rfl, rfl⟩
    rw [tight, Body.filled_zero plain, ← start]
    exact later

-- The key has the size of the body.
def KeySize (key : BodyKey) (body : Body) : Prop :=
  body.code.size < 0x100000000 ∧ key.2 = body.code.size.toUInt32

-- A key that was seen has a body, and its number is known to lie where the key says.
theorem knownAt_idxOf {seen : List BodyKey} {key : BodyKey} (few : seen.length < 0x100000000) (old : key ∈ seen) :
    knownAt seen (seen.idxOf key).toUInt32 = some key.1 := by
  have inside := List.idxOf_lt_length_of_mem old
  rw [knownAt, toNat_toUInt32_of_lt (Nat.lt_trans inside few), List.getElem?_eq_getElem inside, List.getElem_idxOf]
  rfl

theorem knownAt_length {seen : List BodyKey} (few : seen.length < 0x100000000) :
    knownAt seen seen.length.toUInt32 = none := by
  rw [knownAt, toNat_toUInt32_of_lt few, List.getElem?_eq_none (Nat.le_refl _)]
  rfl

theorem exists_body_of_mem {seen : List BodyKey} {front : List Body} {key : BodyKey}
    (sizes : List.Forall₂ KeySize seen front) (old : key ∈ seen) :
    ∃ body, front[seen.idxOf key]? = some body ∧ KeySize key body := by
  have inside := List.idxOf_lt_length_of_mem old
  have within : seen.idxOf key < front.length := by rwa [← sizes.length_eq]
  have fits := getElem?_of_forall₂ sizes (List.getElem?_eq_getElem inside) (List.getElem?_eq_getElem within)
  rw [List.getElem_idxOf] at fits
  exact ⟨_, List.getElem?_eq_getElem within, fits⟩

-- Placing the functions that were read: `seen` are the keys that have a body already, in `front`.
theorem placing_readBack {image : Image} {functions : List Func} {seen : List BodyKey} {left : List Entry}
    {front : List Body} {offset stop : Nat}
    (keys : (functions.map fun func => Reader.bodyKey func.header).foldl addKey seen = seen ++ left.map Entry.key)
    (ids : ∀ func ∈ functions, func.body = ((seen ++ left.map Entry.key).idxOf (Reader.bodyKey func.header)).toUInt32)
    (few : (seen ++ left.map Entry.key).length < 0x100000000)
    (bodies : image.bodies.toList = front ++ readBack (align4 stop) left)
    (sizes : List.Forall₂ KeySize seen front)
    (laid : Laid offset left stop) (plain : ∀ e ∈ left, e.body.Plain) :
    ∃ placements entries stop', Placing image (knownAt seen) offset functions placements entries stop' ∧
      align4 stop' = align4 stop ∧ entries.map Entry.body = readBack (align4 stop) left ∧
      placements.map Placement.bare = functions.map Placement.ofRead := by
  induction functions generalizing seen left front offset stop with
  | nil =>
    obtain rfl : left = [] := by simpa using keys
    obtain rfl : offset = stop := laid
    exact ⟨[], [], offset, .nil, rfl, rfl, rfl⟩
  | cons func rest ih =>
    obtain ⟨id, others⟩ := List.forall_mem_cons.mp ids
    have count : seen.length < 0x100000000 := by
      rw [List.length_append] at few
      omega
    rw [List.map_cons, List.foldl_cons] at keys
    by_cases old : Reader.bodyKey func.header ∈ seen
    · rw [addKey_of_mem old] at keys
      obtain ⟨placements, entries, stop', placing, aligned, same, bares⟩ := ih keys others few bodies sizes laid plain
      rw [idxOf_append_of_mem _ old] at id
      have start : knownAt seen func.body = some func.header.offset := by
        rw [id]
        exact knownAt_idxOf count old
      obtain ⟨body, listed, small, size⟩ := exists_body_of_mem sizes old
      have found : image.bodies[func.body.toNat]? = some body := by
        have inside := List.idxOf_lt_length_of_mem old
        rw [← Array.getElem?_toList, bodies, id, toNat_toUInt32_of_lt (Nat.lt_trans inside count),
          List.getElem?_append_left (by rwa [← sizes.length_eq])]
        exact listed
      refine ⟨_, entries, stop', .shared found small start placing, aligned, same, ?_⟩
      rw [List.map_cons, List.map_cons, bares]
      exact congrArg (· :: _) (ofRead_eq size)
    · rw [addKey_of_not_mem old] at keys
      obtain ⟨unseen, split⟩ := foldl_addKey_append (rest.map fun func => Reader.bodyKey func.header)
        (seen ++ [Reader.bodyKey func.header])
      cases left with
      | nil => simp [split] at keys
      | cons e left =>
        obtain ⟨key, -⟩ : Reader.bodyKey func.header = e.key ∧ unseen = left.map Entry.key := by
          simpa [split] using keys
        obtain ⟨first, plainLater⟩ := List.forall_mem_cons.mp plain
        obtain ⟨stop', laidLater, aligned, same⟩ := laid.bodyStop_filled first
        generalize bodyFound : e.body.filled (nextStart (align4 stop) left - e.stop) = body at laidLater
        have code : body.code = e.body.code := by rw [← bodyFound, Body.code_filled]
        have listed : seen ++ (e :: left).map Entry.key = seen ++ [e.key] ++ left.map Entry.key := by simp
        have stored : front ++ readBack (align4 stop) (e :: left) = front ++ [body] ++ readBack (align4 stop') left := by
          rw [readBack, bodyFound, same]
          simp
        have position : func.body = seen.length.toUInt32 := by
          rw [id, key, List.map_cons, idxOf_append_cons (key ▸ old)]
        rw [key, listed] at keys
        rw [listed] at few ids
        rw [stored] at bodies
        have index : func.body.toNat = seen.length := by rw [position, toNat_toUInt32_of_lt count]
        have found : image.bodies[func.body.toNat]? = some body := by
          rw [← Array.getElem?_toList, bodies, index, sizes.length_eq]
          simp
        have small : body.code.size < 0x100000000 := by rw [code]; exact laid.2.1
        have size : func.header.codeSize = body.code.size.toUInt32 := by
          rw [code]
          exact (Prod.mk.inj key).2
        have start : func.header.offset = e.start := (Prod.mk.inj key).1
        have new : knownAt seen func.body = none := by rw [position, knownAt_length count]
        have sizes' : List.Forall₂ KeySize (seen ++ [e.key]) (front ++ [body]) :=
          List.rel_append sizes (.cons ⟨small, by rw [code]; rfl⟩ .nil)
        obtain ⟨placements, entries, stop'', placing, alignedLater, sameLater, bares⟩ :=
          ih keys (fun func member => ids func (List.mem_cons_of_mem _ member)) few bodies sizes' laidLater plainLater
        rw [← update_knownAt e.key count, ← position, ← key] at placing
        have here : func.header.offset.toNat = offset := by rw [start, laid.1]
        refine ⟨_, _, stop'', .fresh found small new here placing, alignedLater.trans aligned, ?_, ?_⟩
        · rw [List.map_cons, sameLater, same, readBack, bodyFound]
        · rw [List.map_cons, List.map_cons, bares]
          exact congrArg (· :: _) (ofRead_eq size)

namespace FilePlan

variable {plan : FilePlan} {image : Image} {version : Option UInt32}

theorem Serves.map_header_functionsBack (serves : plan.Serves image version) :
    (plan.functionsBack image).map Func.header = plan.headersBack :=
  map_zipWith_right serves.each fun _ _ _ _ => rfl

theorem Serves.map_ofRead_functionsBack (serves : plan.Serves image version) (caches : image.SmallCaches) :
    (plan.functionsBack image).map Placement.ofRead = plan.base.map Placement.bare := by
  have bases : plan.base.map Placement.base = plan.base := by
    conv => rhs; rw [← List.map_id plan.base]
    apply List.map_congr_left
    intro p member
    obtain ⟨func, -, start, body, -, -, header, -⟩ := exists_of_forall₂_right serves.placing.each p member
    unfold Placement.base
    rw [header]
    cases p
    cases header
    rfl
  have settled : (plan.functionsBack image).map Placement.ofRead = plan.placements.map fun p => p.base.bare := by
    apply map_zipWith_right serves.each
    rintro func listed p ⟨e, -, -, header, size⟩
    have stored := stored_of_base header (caches func (Array.mem_toList_iff.mp listed))
    have handlerFlag : p.header.hasExceptionHandler = func.handlers.isSome :=
      congrArg FunctionHeader.hasExceptionHandler header
    have debugFlag : p.header.hasDebugInfo = func.debug.isSome := congrArg FunctionHeader.hasDebugInfo header
    rw [stored, Placement.ofRead, Placement.bare, Placement.base, size]
    simp only [← handlerFlag, ← debugFlag]
    rfl
  rw [settled, ← bases, ← serves.map_base, List.map_map]
  rfl

-- Every entry is the body of a function.
theorem Serves.plain_merged (serves : plan.Serves image version) (plain : image.PlainTables) :
    ∀ e ∈ merged plan.entries, e.body.Plain := by
  intro e member
  obtain ⟨func, listed, same⟩ := serves.placing.used e (mem_of_mem_merged member)
  apply plain func (Array.mem_toList_iff.mp listed)
  rw [same]
  exact serves.placing.found e (mem_of_mem_merged member)

-- The functions that were read are placed as the written ones were.
theorem Serves.placing_reread (serves : plan.Serves image version) (caches : image.SmallCaches)
    (plain : image.PlainTables) : ∃ base entries bodyEnd,
      Placing (plan.reread image) (fun _ => none) plan.table.codeStart (plan.functionsBack image) base entries bodyEnd ∧
      align4 bodyEnd = align4 plan.bodyEnd ∧ entries.map Entry.body = plan.bodiesBack ∧
      base.map Placement.bare = plan.base.map Placement.bare := by
  have keys : ((plan.functionsBack image).map fun func => Reader.bodyKey func.header).foldl addKey [] =
      [] ++ (merged plan.entries).map Entry.key := by
    have headers := congrArg (List.map Reader.bodyKey) serves.map_header_functionsBack
    rw [List.map_map] at headers
    rw [List.nil_append, ← FilePlan.keys, ← serves.bodyKeys_eq, Reader.bodyKeys_eq, ← headers]
    rfl
  have ids : ∀ func ∈ plan.functionsBack image,
      func.body = (([] ++ (merged plan.entries).map Entry.key).idxOf (Reader.bodyKey func.header)).toUInt32 := by
    have each : List.Forall₂ (fun _ back : Func =>
        back.body = (plan.keys.idxOf (Reader.bodyKey back.header)).toUInt32)
        image.functions.toList (plan.functionsBack image) := by
      apply forall₂_zipWith_right serves.each
      intro func _ p _
      rw [bodyKey_stored]
    intro func member
    obtain ⟨-, -, id⟩ := exists_of_forall₂_right each func member
    exact id
  obtain ⟨base, entries, bodyEnd, placing, aligned, bodies, bares⟩ := 
    @placing_readBack (plan.reread image) _ [] _ [] _ _ keys ids serves.length_keys rfl .nil
      serves.placing.laid.merged (serves.plain_merged plain)
  refine ⟨base, entries, bodyEnd, placing, aligned, bodies, ?_⟩
  rw [bares, serves.map_ofRead_functionsBack caches]

theorem Serves.header_reread (serves : plan.Serves image version) :
    Writer.header (plan.reread image) none = Writer.header image version := by
  have described := serves.describes
  have count : (plan.reread image).functions.size = image.functions.size := by
    have headers := congrArg List.length serves.map_header_functionsBack
    rw [List.length_map, headersBack, List.length_map, serves.length_placements] at headers
    exact headers
  unfold Writer.header
  rw [count]
  simp only [Option.getD_none]
  rw [show (plan.reread image).version = version.getD image.version from described.version_eq,
    show (plan.reread image).sourceHash = image.sourceHash from described.sourceHash_eq,
    show (plan.reread image).globalCodeIndex = image.globalCodeIndex from described.globalCodeIndex_eq,
    show (plan.reread image).segmentId = image.segmentId from described.segmentId_eq,
    show (plan.reread image).options = image.options from described.options_eq]
  rfl

-- The plan by which the image that was read is written.
theorem Serves.serves_reread (serves : plan.Serves image version) (caches : image.SmallCaches)
    (plain : image.PlainTables) : ∃ again : FilePlan, again.Serves (plan.reread image) none ∧
      again.header = plan.header ∧ again.entries.map Entry.body = plan.bodiesBack ∧
      again.placements.map Placement.bare = plan.placements.map Placement.bare := by
  obtain ⟨base, entries, bodyEnd, placing, aligned, bodies, bares⟩ := serves.placing_reread caches plain
  have marks : (base.map Placement.mark).map Placement.bare = (plan.base.map Placement.mark).map Placement.bare := by
    have same := congrArg (List.map Placement.mark) bares
    rw [List.map_map, List.map_map] at same ⊢
    exact same
  have settled : (Placement.settle (align4 bodyEnd) (base.map Placement.mark)).map
      (fun result => (result.1.map Placement.bare, result.2)) = .ok (plan.placements.map Placement.bare, plan.stop) := by
    rw [← Placement.settle_map_bare, marks, Placement.settle_map_bare, aligned, serves.settled]
    rfl
  obtain ⟨⟨placements, stop⟩, done, same⟩ := map_ok_iff.mp settled
  obtain ⟨sameBares, rfl⟩ := Prod.mk.inj same
  refine ⟨{ plan with base, entries, bodyEnd, placements }, ⟨?_, serves.segments, ?_, done, ?_, ?_⟩, rfl, bodies,
    sameBares⟩
  · rw [serves.header_reread]
    exact serves.made
  · exact placing
  · exact serves.debug
  · exact serves.length

end FilePlan

theorem header_of_bare {p q : Placement} (same : p.bare = q.bare) : p.header = q.header := by
  cases p
  cases q
  cases same
  rfl

-- A trailer depends on the header, the handlers and the debug offsets only.
theorem Writer.foldl_trailers_back (keys : List BodyKey) {functions : List Func} {ps qs : List Placement}
    (same : qs.map Placement.bare = ps.map Placement.bare) (out : ByteArray) :
    ((List.zipWith (fun (func : Func) (p : Placement) => (⟨p.header.stored,
        (keys.idxOf (Reader.bodyKey p.header)).toUInt32, func.handlers, func.debug⟩ : Func)) functions ps).zip qs).foldl
        (fun out (func, p) => appendTrailer out func p) out =
      (functions.zip ps).foldl (fun out (func, p) => appendTrailer out func p) out := by
  induction functions generalizing ps qs out with
  | nil => rfl
  | cons func rest ih =>
    cases ps with
    | nil => rfl
    | cons p ps =>
      cases qs with
      | nil => cases same
      | cons q qs =>
        obtain ⟨head, tail⟩ := List.cons.inj same
        rw [List.zipWith_cons_cons, List.zip_cons_cons, List.zip_cons_cons, List.foldl_cons, List.foldl_cons]
        have first (id : UInt32) : appendTrailer out ⟨p.header.stored, id, func.handlers, func.debug⟩ q =
            appendTrailer out func p := by
          rw [appendTrailer_eq, appendTrailer_eq, header_of_bare head]
          rfl
        simp only
        rw [first]
        exact ih tail _

namespace FilePlan

variable {plan : FilePlan} {image : Image} {version : Option UInt32}

theorem segment_reread {again : FilePlan} (same : again.placements.map Placement.bare = plan.placements.map Placement.bare) :
    Writer.segment (plan.reread image) again.placements = Writer.segment image plan.placements := by
  have records : again.placements.map Writer.smallRecord = plan.placements.map Writer.smallRecord := by
    have mapped := congrArg (List.map Writer.smallRecord) same
    rw [List.map_map, List.map_map] at mapped
    exact mapped
  funext segment
  cases segment with
  | functionHeaders => rw [Writer.segment, Writer.segment, records]
  | _ => rfl

theorem Serves.contents_reread (serves : plan.Serves image version) (plain : image.PlainTables) {again : FilePlan}
    (rewritten : again.Serves (plan.reread image) none) (header : again.header = plan.header)
    (bodies : again.entries.map Entry.body = plan.bodiesBack)
    (same : again.placements.map Placement.bare = plan.placements.map Placement.bare) :
    again.contents (plan.reread image) = plan.contents image := by
  have laid := serves.placing.laid
  have sizes := Writer.size_segment serves.describes.counts serves.length_placements
  obtain ⟨segmentsEnd, -, -⟩ := SegmentTable.holds_of_place
    (SegmentTable.ofHeader_ok_iff.mp serves.segments) (fun s _ => sizes s) (Header.size_encode plan.header)
  have bodyPart := (Writer.padded_foldl_readBack laid.merged (serves.plain_merged plain) segmentsEnd).trans
    (congrArg padded (Writer.foldl_appendBody_merged laid segmentsEnd))
  rw [contents, contents, Writer.contents, Writer.contents, header, segment_reread same, rewritten.bodies_eq, bodies,
    serves.bodies_eq, bodiesBack, bodyPart]
  exact congrArg (· ++ _) (Writer.foldl_trailers_back plan.keys same _)

-- Writing an image that was read from a written file gives that file again.
theorem Serves.write_reread (serves : plan.Serves image version) (caches : image.SmallCaches)
    (plain : image.PlainTables) : (plan.reread image).write = .ok (Writer.signed (plan.contents image)) := by
  obtain ⟨again, rewritten, header, bodies, same⟩ := serves.serves_reread caches plain
  rw [← serves.contents_reread plain rewritten header bodies same]
  exact Image.write_exact.mpr ⟨again, rewritten, rfl⟩

end FilePlan

theorem Image.verify_of_parse {out : ByteArray} {image : Image} (parsed : Image.parse (Writer.signed out) = .ok image)
    (rewritten : image.write = .ok (Writer.signed out)) : Image.verify (Writer.signed out) = .ok image := by
  rw [Image.verify, checkDigest_signed, ok_bind, parsed, ok_bind, rewritten, ok_bind, if_pos rfl]
  rfl

-- A written file is a fixed point of reading and writing.
theorem Image.fixed_point_of_written {image : Image} {file : ByteArray} (good : image.WellFormed)
    (plain : image.PlainTables) (caches : image.SmallCaches) (few : image.strings.overflowCount ≤ 2 ^ 23)
    (written : image.write = .ok file) :
    ∃ again, Image.parse file = .ok again ∧ again.write = .ok file ∧ Image.verify file = .ok again := by
  obtain ⟨plan, serves, rfl⟩ := Image.write_exact.mp written
  have parsed := serves.parse_signed good few {}
  have rewritten := serves.write_reread caches plain
  exact ⟨plan.reread image, parsed, rewritten, Image.verify_of_parse parsed rewritten⟩

-- Whatever image is written, well formed by itself or because it was read from some file.
theorem Image.write_parse_fixed_point :
    (∀ (image : Image) (file : ByteArray), image.WellFormed → image.PlainTables → image.SmallCaches →
      image.strings.overflowCount ≤ 2 ^ 23 → image.write = .ok file →
      ∃ again, Image.parse file = .ok again ∧ again.write = .ok file ∧ Image.verify file = .ok again) ∧
    (∀ (data : ByteArray) (options : ReadOptions) (image : Image) (file : ByteArray),
      Image.parse data options = .ok image → image.strings.overflowCount ≤ 2 ^ 23 → image.write = .ok file →
      ∃ again, Image.parse file = .ok again ∧ again.write = .ok file ∧ Image.verify file = .ok again) := by
  constructor
  · intro image file good plain caches few written
    exact Image.fixed_point_of_written good plain caches few written
  · intro data options image file parsed few written
    obtain ⟨header, table, tables, reading⟩ := Image.parse_exact.mp parsed
    obtain ⟨good, caches, plain⟩ := reading.wellFormed
    exact Image.fixed_point_of_written good plain caches few written

theorem Image.sample_plainTables : Image.sample.PlainTables := by
  intro func member body found tables present
  have bodies : ∀ body ∈ Image.sample.bodies, body.jumpTables.all (fun tables => decide (0 < tables.size)) = true := by
    decide
  have here := bodies body (Array.mem_of_getElem? found)
  rw [present] at here
  simpa using here

-- The sample is written and read, and so is the image that was read.
theorem Image.sample_fixed_point :
    ∃ file again, Image.sample.write = .ok file ∧
      (Image.parse file = .ok again ∧ again.write = .ok file ∧ Image.verify file = .ok again) ∧
      ∃ third, Image.parse file = .ok third ∧ third.write = .ok file ∧ Image.verify file = .ok third := by
  obtain ⟨file, written⟩ := Image.sample_written
  obtain ⟨again, first⟩ := Image.write_parse_fixed_point.1 Image.sample file Image.sample_wellFormed
    Image.sample_plainTables Image.sample_smallCaches Image.sample_few written
  refine ⟨file, again, written, first, ?_⟩
  obtain ⟨plan, serves, rfl⟩ := Image.write_exact.mp written
  exact Image.write_parse_fixed_point.2 _ {} (plan.reread Image.sample) _
    (serves.parse_signed Image.sample_wellFormed Image.sample_few {}) Image.sample_few
    (serves.write_reread Image.sample_smallCaches Image.sample_plainTables)

end CodeImage
