import CodeImage.Proofs.RoundTrip
import CodeImage.Proofs.BodySharing

-- Tables take what lies between the code and the next body. So those that are present but empty are read as absent, and
-- those of the last body are read with the zeros that align the first trailer.

namespace CodeImage

theorem getLast?_merged (entries : List Entry) : (merged entries).getLast? = entries.getLast? := by
  fun_induction merged entries with
  | case1 => rfl
  | case2 => rfl
  | case3 e next rest same ih => rw [ih, List.getLast?_cons_cons]
  | case4 e next rest other ih => rw [List.getLast?_cons, ih, ← List.getLast?_cons]

-- Bodies are placed in the order in which functions use them first.
theorem Placing.ids {image : Image} {known : UInt32 → Option UInt32} {offset stop : Nat} {functions : List Func}
    {placements : List Placement} {entries : List Entry}
    (placing : Placing image known offset functions placements entries stop) :
    entries.map Entry.id = ((functions.map Func.body).filter fun id => (known id).isNone).eraseDups := by
  induction placing with
  | nil => rfl
  | shared _ _ old _ ih => rw [List.map_cons, List.filter_cons_of_neg (by simp [old]), ih]
  | @fresh known _ _ func rest _ _ start _ _ _ new _ _ ih =>
    rw [List.map_cons, List.map_cons, List.filter_cons_of_pos (by simp [new]), List.eraseDups_cons, List.filter_filter, ih]
    congr 3
    funext id
    by_cases same : id = func.body
    · simp [same]
    · simp [same]

-- What is left of the jump tables of a body: nothing if they are empty, and with zeros behind them in the last place.
structure Body.TablesBack (body : Body) (last : Prop) (back : Body) : Prop where
  absent : body.jumpTables = none → back.jumpTables = none
  empty : ∀ tables, body.jumpTables = some tables → tables.size = 0 → back.jumpTables = none
  same : ∀ tables, body.jumpTables = some tables → 0 < tables.size → ¬ last ∨ tables.size % 4 = 0 →
    back.jumpTables = some tables
  padded : ∀ tables, body.jumpTables = some tables → 0 < tables.size → last → back.jumpTables = some (padded tables)

theorem Body.jumpTables_filled {body : Body} {tables : ByteArray} (present : body.jumpTables = some tables)
    (filled : 0 < tables.size) (gap : Nat) : (body.filled gap).jumpTables = some (tables ++ zeros gap) := by
  simp [Body.filled, present, filled]

-- The tables start at a multiple of four, so the zeros behind them align their own size.
theorem Entry.gap_eq {e : Entry} {tables : ByteArray} (present : e.body.jumpTables = some tables) :
    align4 e.stop - e.stop = align4 tables.size - tables.size := by
  have stop : e.stop = align4 (e.start.toNat + e.body.code.size) + tables.size := by
    rw [Entry.stop, Placement.bodyStop, present]
  have whole := align4_mod (e.start.toNat + e.body.code.size)
  rw [stop]
  unfold align4 at whole ⊢
  omega

theorem Entry.tablesBack (e : Entry) {last : Prop} [Decidable last] :
    e.body.TablesBack last (e.body.filled (if last then align4 e.stop - e.stop else 0)) := by
  refine ⟨?_, ?_, ?_, ?_⟩
  · intro absent
    simp [Body.filled, absent]
  · intro tables present empty
    simp [Body.filled, present, ByteArray.size_eq_zero_iff.mp empty]
  · intro tables present filled free
    rw [Body.jumpTables_filled present filled, Entry.gap_eq present]
    rcases free with before | whole
    · rw [if_neg before, zeros_zero, ByteArray.append_empty]
    · rw [align4_of_mod whole, Nat.sub_self, ite_self, zeros_zero, ByteArray.append_empty]
  · intro tables present filled last
    rw [Body.jumpTables_filled present filled, Entry.gap_eq present, if_pos last, CodeImage.padded]

namespace Image

-- The body of a function stands last in a written file: no body is used for the first time after it.
def PlacedLast (image : Image) (id : UInt32) : Prop :=
  image.functions[id.toNat]?.map Func.body = (image.functions.toList.map Func.body).eraseDups.getLast?

instance (image : Image) (id : UInt32) : Decidable (image.PlacedLast id) := inferInstanceAs (Decidable (_ = _))

end Image

namespace FilePlan

variable {plan : FilePlan} {image : Image} {version : Option UInt32}

-- An entry that is kept stands last if its body is the last one that is placed.
theorem Serves.last_iff (serves : plan.Serves image version) {e : Entry} {i : Nat}
    (found : (merged plan.entries)[i]? = some e) :
    i + 1 = (merged plan.entries).length ↔ some e.id = (image.functions.toList.map Func.body).eraseDups.getLast? := by
  have inside := (List.getElem?_eq_some_iff.mp found).1
  have ids := serves.placing.ids
  simp only [Option.isNone_none, List.filter_true] at ids
  rw [← ids, List.getLast?_map, ← getLast?_merged, List.getLast?_eq_getElem?]
  constructor
  · intro last
    rw [show (merged plan.entries).length - 1 = i by omega, found, Option.map_some]
  · intro last
    obtain ⟨m, final, same⟩ := Option.map_eq_some_iff.mp last.symm
    -- The last entry has the same number, so it is the entry.
    obtain rfl : m = e := List.inj_on_of_nodup_map serves.placing.distinct.1
      (mem_of_mem_merged (List.mem_of_getElem? final)) (mem_of_mem_merged (List.mem_of_getElem? found)) same
    have distinct : plan.keys.Nodup := serves.bodyKeys_eq ▸ Reader.nodup_bodyKeys plan.headersBack
    have place := (List.getElem?_inj inside distinct.of_map).mp (found.trans final.symm)
    omega

-- The jump tables that are read back for an entry with code.
theorem Serves.tables_back (serves : plan.Serves image version) {e : Entry} (member : e ∈ plan.entries)
    (filled : 0 < e.body.code.size) : ∃ back, plan.bodiesBack[plan.keys.idxOf e.key]? = some back ∧
      e.body.TablesBack (some e.id = (image.functions.toList.map Func.body).eraseDups.getLast?) back := by
  have laid := serves.placing.laid
  obtain ⟨m, old, found, key⟩ := serves.merged_at member
  rcases laid.eq_of_key member old key.symm with rfl | empty
  · refine ⟨_, getElem?_readBack laid.merged found, ?_⟩
    rw [← serves.last_iff found]
    exact e.tablesBack
  · omega

-- The function that is read back for a function, and the entry that its number stands for.
theorem Serves.entry_of_function (serves : plan.Serves image version) {i : Nat} {func : Func}
    (known : image.functions[i]? = some func) :
    ∃ e ∈ plan.entries, e.id = func.body ∧ ∃ back, (plan.functionsBack image)[i]? = some back ∧
      back.body.toNat = plan.keys.idxOf e.key := by
  have inside : i < plan.placements.length := by
    rw [serves.length_placements]
    exact (Array.getElem?_eq_some_iff.mp known).1
  rw [← Array.getElem?_toList] at known
  have placed := List.getElem?_eq_getElem inside
  obtain ⟨-, ⟨e, member, ident, header⟩, -⟩ := getElem?_of_forall₂ serves.located known placed
  have key : Reader.bodyKey plan.placements[i].header = e.key := congrArg Reader.bodyKey header
  refine ⟨e, member, ident, _, List.getElem?_zipWith_eq_some.mpr ⟨func, _, known, placed, rfl⟩, ?_⟩
  rw [key]
  exact serves.toNat_idxOf member

-- The jump tables of a function, however the file is read.
theorem Serves.tables_reread (serves : plan.Serves image version) {options : ReadOptions} {back : Image}
    (parsed : Image.parse (Writer.signed (plan.contents image)) options = .ok back) (id : UInt32) {body : Body}
    (found : image.bodyOf id = .ok body) (filled : 0 < body.code.size) :
    ∃ body', back.bodyOf id = .ok body' ∧ body.TablesBack (image.PlacedLast id) body' := by
  obtain ⟨functions, bodies⟩ := serves.assembled_reread parsed
  obtain ⟨func, known, held⟩ := Image.bodyOf_ok_iff.mp found
  obtain ⟨e, member, ident, func', known', number⟩ := serves.entry_of_function known
  rw [← ident, serves.placing.found e member] at held
  cases held
  obtain ⟨body', held', tables⟩ := serves.tables_back member filled
  refine ⟨body', Image.bodyOf_ok_iff.mpr ⟨func', ?_, ?_⟩, ?_⟩
  · rw [functions, List.getElem?_toArray, known']
  · rw [bodies, List.getElem?_toArray, number, held']
  · rwa [Image.PlacedLast, known, Option.map_some, ← ident]

end FilePlan

-- Jump tables that are present but empty, three bytes before another body, and three bytes at the end.
def Image.sampleTables : Image :=
  { functions := #[⟨{}, 0, none, none⟩, ⟨{}, 1, none, none⟩, ⟨{}, 2, none, none⟩]
    bodies := #[⟨⟨#[92, 0]⟩, some ByteArray.empty⟩, ⟨⟨#[92, 0]⟩, some ⟨#[1, 2, 3]⟩⟩, ⟨⟨#[92, 0]⟩, some ⟨#[4, 5, 6]⟩⟩] }

theorem Image.sampleTables_written : ∃ file, Image.sampleTables.write = .ok file := by
  have done : Image.sampleTables.write.toBool = true := by decide +kernel
  exact exists_of_toBool done

theorem Image.sampleTables_wellFormed : Image.sampleTables.WellFormed :=
  ⟨⟨by unfold StringTable.InStorage; decide, rfl, rfl⟩, by decide, by unfold OffsetTable.InStorage; decide,
    by unfold OffsetTable.InStorage; decide⟩

-- Not all jump tables come back as they were: the empty ones are lost, and the last ones grow by a zero.
theorem Image.sampleTables_changed :
    Image.sampleTables.WellFormed ∧ (∀ body ∈ Image.sampleTables.bodies, 0 < body.code.size) ∧
    ∃ file back, Image.sampleTables.write = .ok file ∧ Image.parse file = .ok back ∧
      (Image.sampleTables.bodyOf 0).map Body.jumpTables = .ok (some ByteArray.empty) ∧
      (back.bodyOf 0).map Body.jumpTables = .ok none ∧
      (Image.sampleTables.bodyOf 2).map Body.jumpTables = .ok (some ⟨#[4, 5, 6]⟩) ∧
      (back.bodyOf 2).map Body.jumpTables = .ok (some ⟨#[4, 5, 6, 0]⟩) := by
  obtain ⟨file, written⟩ := Image.sampleTables_written
  obtain ⟨plan, serves, rfl⟩ := Image.write_exact.mp written
  have parsed := serves.parse_signed Image.sampleTables_wellFormed (by decide) {}
  obtain ⟨first, found, tables⟩ := serves.tables_reread parsed 0 rfl (by decide)
  obtain ⟨last, found', tables'⟩ := serves.tables_reread parsed 2 rfl (by decide)
  refine ⟨Image.sampleTables_wellFormed, by decide, _, _, written, parsed, rfl, ?_, rfl, ?_⟩
  · rw [found, Except.map, tables.empty _ rfl rfl]
  · rw [found', Except.map, tables'.padded _ rfl (by decide) (by decide)]
    exact congrArg (Except.ok ∘ some) (by decide)

-- Jump tables come back as they were, unless they are empty or stand last and take no whole words.
theorem Image.jump_tables_reread {image : Image} {version : Option UInt32} {file : ByteArray} (good : image.WellFormed)
    (written : image.write version = .ok file) :
    (image.strings.overflowCount ≤ 2 ^ 23 → ∃ back, ∀ options, Image.parse file options = .ok back) ∧
    ∀ options back, Image.parse file options = .ok back → ∀ id body, image.bodyOf id = .ok body → 0 < body.code.size →
      ∃ body', back.bodyOf id = .ok body' ∧ body.TablesBack (image.PlacedLast id) body' := by
  obtain ⟨plan, serves, rfl⟩ := Image.write_exact.mp written
  constructor
  · intro few
    exact ⟨plan.reread image, serves.parse_signed good few⟩
  · intro options back parsed id body found filled
    exact serves.tables_reread parsed id found filled

theorem Image.sample_tables_reread :
    ∃ file back, Image.sampleTables.write = .ok file ∧ Image.parse file = .ok back ∧
      (back.bodyOf 1).map Body.jumpTables = .ok (some ⟨#[1, 2, 3]⟩) ∧
      (back.bodyOf 2).map Body.jumpTables = .ok (some ⟨#[4, 5, 6, 0]⟩) := by
  obtain ⟨file, written⟩ := Image.sampleTables_written
  obtain ⟨readable, restores⟩ := Image.jump_tables_reread Image.sampleTables_wellFormed written
  obtain ⟨back, parsed⟩ := readable (by decide)
  obtain ⟨inner, found, tables⟩ := restores {} back (parsed {}) 1 _ rfl (by decide)
  obtain ⟨last, found', tables'⟩ := restores {} back (parsed {}) 2 _ rfl (by decide)
  refine ⟨file, back, written, parsed {}, ?_, ?_⟩
  · rw [found, Except.map, tables.same _ rfl (by decide) (.inl (by decide))]
  · rw [found', Except.map, tables'.padded _ rfl (by decide) (by decide)]
    exact congrArg (Except.ok ∘ some) (by decide)

end CodeImage
