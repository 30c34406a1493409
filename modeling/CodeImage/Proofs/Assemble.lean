import CodeImage.Proofs.BodyPlan

namespace CodeImage

theorem foldl_addKey_append (keys seen : List BodyKey) : ∃ fresh, keys.foldl addKey seen = seen ++ fresh := by
  induction keys generalizing seen with
  | nil => exact ⟨[], by simp⟩
  | cons key rest ih =>
    by_cases old : key ∈ seen
    · obtain ⟨fresh, same⟩ := ih seen
      exact ⟨fresh, by rw [List.foldl_cons, addKey_of_mem old, same]⟩
    · obtain ⟨fresh, same⟩ := ih (seen ++ [key])
      exact ⟨key :: fresh, by rw [List.foldl_cons, addKey_of_not_mem old, same]; simp⟩

theorem mem_foldl_addKey_iff {keys seen : List BodyKey} {key : BodyKey} :
    key ∈ keys.foldl addKey seen ↔ key ∈ seen ∨ key ∈ keys := by
  induction keys generalizing seen with
  | nil => simp
  | cons first rest ih => rw [List.foldl_cons, ih, mem_addKey_iff, List.mem_cons, or_assoc]

theorem mem_foldl_addKey {keys seen : List BodyKey} {key : BodyKey} (member : key ∈ keys) :
    key ∈ keys.foldl addKey seen := mem_foldl_addKey_iff.mpr (.inr member)

theorem idxOf_append_of_mem {seen : List BodyKey} (fresh : List BodyKey) {key : BodyKey} (old : key ∈ seen) :
    (seen ++ fresh).idxOf key = seen.idxOf key := by
  rw [List.idxOf_append, if_pos old]

theorem idxOf_append_cons {seen fresh : List BodyKey} {key : BodyKey} (new : key ∉ seen) :
    (seen ++ key :: fresh).idxOf key = seen.length := by
  rw [List.idxOf_append, if_neg new, List.idxOf_cons_self, Nat.zero_add]

namespace Reader

variable {region : Region}

-- What a function is when its header names one of `keys`.
def Assembled (region : Region) (keys : List BodyKey) (header : FunctionHeader) (func : Func) : Prop :=
  ∃ trailer, readTrailer region header = .ok trailer ∧
    func = ⟨header, (keys.idxOf (bodyKey header)).toUInt32, trailer.1, trailer.2⟩

-- What the body in a slot is, given by its key and the end of its space.
def Stored (region : Region) (slot : BodyKey × Nat) (body : Body) : Prop := readBody region slot.1 slot.2 = .ok body

-- A body that is there is kept, and one that is new is read into the slot after the others.
theorem nextBodies_of_mem {seen : List BodyKey} {header : FunctionHeader} {bodies : Array Body}
    (count : bodies.size = seen.length) (old : bodyKey header ∈ seen) (fresh : List BodyKey) (stops : List Nat) :
    nextBodies region (seen ++ fresh) stops header bodies = .ok bodies := by
  rw [nextBodies, if_pos]
  rw [idxOf_append_of_mem fresh old, count]
  exact List.idxOf_lt_length_of_mem old

theorem nextBodies_of_not_mem {seen : List BodyKey} {header : FunctionHeader} {bodies : Array Body} {before : List Nat}
    (count : bodies.size = seen.length) (stops : before.length = seen.length) (new : bodyKey header ∉ seen)
    (fresh : List BodyKey) (stop : Nat) (after : List Nat) :
    nextBodies region (seen ++ bodyKey header :: fresh) (before ++ stop :: after) header bodies =
      (readBody region (bodyKey header) stop).map bodies.push := by
  have slot : (before ++ stop :: after).getD seen.length 0 = stop := by
    rw [← stops, List.getD_eq_getElem?_getD, List.getElem?_append_right (Nat.le_refl _)]
    simp
  rw [nextBodies, idxOf_append_cons new, if_neg (by omega), slot]

-- The bodies of the keys seen so far are there, and the others follow them.
theorem readFunctions_exact {headers : List FunctionHeader} {seen fresh : List BodyKey} {before after : List Nat}
    (functions : Array Func) {allFunctions : Array Func} (bodies : Array Body) {allBodies : Array Body}
    (keys : (headers.map bodyKey).foldl addKey seen = seen ++ fresh) (count : bodies.size = seen.length)
    (oldStops : before.length = seen.length) (newStops : after.length = fresh.length) :
    readFunctions region (seen ++ fresh) (before ++ after) headers functions bodies = .ok (allFunctions, allBodies) ↔
      ∃ newFunctions newBodies, allFunctions = functions ++ newFunctions.toArray ∧
        allBodies = bodies ++ newBodies.toArray ∧
        List.Forall₂ (Stored region) (fresh.zip after) newBodies ∧
        List.Forall₂ (Assembled region (seen ++ fresh)) headers newFunctions := by
  induction headers generalizing seen fresh before after functions bodies with
  | nil =>
    obtain rfl : fresh = [] := by simpa using keys
    rw [readFunctions]
    constructor
    · intro done
      cases done
      exact ⟨[], [], by simp, by simp, .nil, .nil⟩
    · rintro ⟨newFunctions, newBodies, rfl, rfl, stored, assembled⟩
      cases assembled
      cases stored
      simp
  | cons header rest ih =>
    rw [readFunctions_cons]
    rw [List.map_cons, List.foldl_cons] at keys
    by_cases old : bodyKey header ∈ seen
    · rw [addKey_of_mem old] at keys
      rw [nextBodies_of_mem count old, ok_bind, bind_ok_iff]
      constructor
      · rintro ⟨trailer, read, done⟩
        obtain ⟨newFunctions, newBodies, rfl, rfl, stored, assembled⟩ := (ih _ bodies keys count oldStops newStops).mp done
        exact ⟨_ :: newFunctions, newBodies, by simp, rfl, stored, .cons ⟨trailer, read, rfl⟩ assembled⟩
      · rintro ⟨newFunctions, newBodies, rfl, rfl, stored, assembled⟩
        cases assembled with
        | cons first later =>
          obtain ⟨trailer, read, rfl⟩ := first
          exact ⟨trailer, read, (ih _ bodies keys count oldStops newStops).mpr ⟨_, newBodies, by simp, rfl, stored, later⟩⟩
    · obtain ⟨others, split⟩ := foldl_addKey_append (rest.map bodyKey) (seen ++ [bodyKey header])
      rw [addKey_of_not_mem old, split, List.append_assoc, List.append_cancel_left_eq, List.singleton_append] at keys
      subst keys
      cases after with
      | nil => cases newStops
      | cons stop after =>
        have grown (body : Body) : (bodies.push body).size = (seen ++ [bodyKey header]).length := by simp [count]
        have oldStops' : (before ++ [stop]).length = (seen ++ [bodyKey header]).length := by simp [oldStops]
        have newStops' : after.length = others.length := by simpa using newStops
        have ih' (functions : Array Func) (body : Body) :=
          ih functions (bodies.push body) split (grown body) oldStops' newStops'
        simp only [List.append_assoc, List.singleton_append] at ih'
        rw [nextBodies_of_not_mem count oldStops old, bind_ok_iff]
        constructor
        · rintro ⟨grownBodies, pushed, more⟩
          obtain ⟨body, readHere, rfl⟩ := map_ok_iff.mp pushed
          obtain ⟨trailer, read, done⟩ := bind_ok_iff.mp more
          obtain ⟨newFunctions, newBodies, rfl, rfl, stored, assembled⟩ := (ih' _ body).mp done
          exact ⟨_ :: newFunctions, body :: newBodies, by simp, by simp, .cons readHere stored,
            .cons ⟨trailer, read, rfl⟩ assembled⟩
        · rintro ⟨newFunctions, newBodies, rfl, rfl, stored, assembled⟩
          cases assembled with
          | cons first later =>
            obtain ⟨trailer, read, rfl⟩ := first
            rw [List.zip_cons_cons] at stored
            cases stored with
            | @cons _ body _ bodiesLater readHere storedLater =>
              refine ⟨bodies.push body, map_ok_iff.mpr ⟨body, readHere, rfl⟩, bind_ok_iff.mpr ⟨trailer, read, ?_⟩⟩
              exact (ih' _ body).mpr ⟨_, bodiesLater, by simp, by simp, storedLater, later⟩

theorem length_bodyStops (headers : List FunctionHeader) : (bodyStops headers).length = (bodyKeys headers).length := by
  cases headers with
  | nil => rfl
  | cons first rest =>
    have member : bodyKey first ∈ bodyKeys (first :: rest) := by
      rw [bodyKeys_eq]
      exact mem_foldl_addKey (by simp)
    have some := List.length_pos_of_mem member
    rw [bodyStops, List.length_append, List.length_map, List.length_drop, List.length_singleton]
    omega

theorem assemble_exact {headers : List FunctionHeader} {functions : List Func} {bodies : List Body} :
    assemble region headers = .ok (functions.toArray, bodies.toArray) ↔
      List.Forall₂ (Stored region) ((bodyKeys headers).zip (bodyStops headers)) bodies ∧
        List.Forall₂ (Assembled region (bodyKeys headers)) headers functions := by
  have keys : (headers.map bodyKey).foldl addKey [] = [] ++ bodyKeys headers := (bodyKeys_eq headers).symm
  have exact := @readFunctions_exact region headers [] _ [] _ #[] functions.toArray #[] bodies.toArray keys rfl rfl
    (length_bodyStops headers)
  simp only [List.nil_append] at exact
  rw [assemble, exact]
  constructor
  · rintro ⟨newFunctions, newBodies, sameFunctions, sameBodies, stored, assembled⟩
    obtain rfl : functions = newFunctions := by simpa using sameFunctions
    obtain rfl : bodies = newBodies := by simpa using sameBodies
    exact ⟨stored, assembled⟩
  · rintro ⟨stored, assembled⟩
    exact ⟨functions, bodies, by simp, by simp, stored, assembled⟩

end Reader

namespace Writer

-- The bytes of a body that starts at `start`.
def bodyBytes (start : Nat) (body : Body) : ByteArray :=
  match body.jumpTables with
  | none => body.code
  | some tables => body.code ++ zeros (align4 (start + body.code.size) - (start + body.code.size)) ++ tables

theorem bodyBytes_of_none {body : Body} (absent : body.jumpTables = none) (start : Nat) :
    bodyBytes start body = body.code := by
  rw [bodyBytes, absent]

theorem bodyBytes_of_some {body : Body} {tables : ByteArray} (present : body.jumpTables = some tables) (start : Nat) :
    bodyBytes start body =
      body.code ++ (zeros (align4 (start + body.code.size) - (start + body.code.size)) ++ tables) := by
  rw [bodyBytes, present, ← ByteArray.append_assoc]

theorem appendBody_eq (out : ByteArray) (body : Body) : appendBody out body = out ++ bodyBytes out.size body := by
  unfold appendBody bodyBytes
  cases body.jumpTables with
  | none => simp
  | some tables => simp only [padded, ByteArray.size_append, ByteArray.append_assoc]

theorem size_bodyBytes (start : Nat) (body : Body) :
    start + (bodyBytes start body).size = Placement.bodyStop start body := by
  unfold bodyBytes Placement.bodyStop
  cases body.jumpTables with
  | none => rfl
  | some tables =>
    have := le_align4 (start + body.code.size)
    simp only [ByteArray.size_append, size_zeros]
    omega

theorem holds_bodies {offset stop : Nat} {entries : List Entry} (laid : Laid offset entries stop) {out : ByteArray}
    (size : out.size = offset) :
    let written := (entries.map Entry.body).foldl appendBody out
    written.size = stop ∧ Holds written 0 out ∧
      ∀ e ∈ entries, Holds written e.start.toNat (bodyBytes e.start.toNat e.body) := by
  induction entries generalizing offset out with
  | nil => exact ⟨size.trans laid, Holds.refl out, fun e member => absurd member (List.not_mem_nil)⟩
  | cons e rest ih =>
    obtain ⟨start, -, later⟩ := laid
    have here : out.size = e.start.toNat := size.trans start.symm
    have grown : (appendBody out e.body).size = e.stop := by
      rw [appendBody_eq, ByteArray.size_append, size_bodyBytes, here, Entry.stop]
    obtain ⟨total, whole, inside⟩ := ih later grown
    have parts := appendBody_eq out e.body
    refine ⟨total, whole.inside_front (by rw [parts]; exact Holds.prefix_append ..), ?_⟩
    rw [List.forall_mem_cons]
    refine ⟨whole.inside_front ?_, inside⟩
    rw [parts, ← here]
    exact Holds.suffix_append ..

-- Leaving out the entries without room changes no byte.
theorem foldl_appendBody_merged {offset stop : Nat} {entries : List Entry} (laid : Laid offset entries stop)
    {out : ByteArray} (size : out.size = offset) :
    ((merged entries).map Entry.body).foldl appendBody out = (entries.map Entry.body).foldl appendBody out := by
  fun_induction merged entries generalizing offset out with
  | case1 => rfl
  | case2 => rfl
  | case3 e next rest same ih =>
    have here : out.size = e.start.toNat := size.trans laid.1.symm
    have empty : (bodyBytes out.size e.body).size = 0 := by
      have room := size_bodyBytes e.start.toNat e.body
      have none := laid.stop_eq_start same
      rw [Entry.stop] at none
      rw [here]
      omega
    have skip : appendBody out e.body = out := by
      rw [appendBody_eq, ByteArray.size_eq_zero_iff.mp empty, ByteArray.append_empty]
    rw [List.map_cons, List.foldl_cons, skip]
    exact ih laid.2.2 (by rw [laid.stop_eq_start same, size])
  | case4 e next rest other ih =>
    have here : out.size = e.start.toNat := size.trans laid.1.symm
    rw [List.map_cons, List.foldl_cons, List.map_cons, List.foldl_cons]
    apply ih laid.2.2
    rw [appendBody_eq, ByteArray.size_append, size_bodyBytes, here, Entry.stop]

end Writer

-- A body that is read from a space with `gap` zeros behind it.
def Body.filled (body : Body) (gap : Nat) : Body :=
  { body with jumpTables := (body.jumpTables.filter fun tables => decide (0 < tables.size)).map (· ++ zeros gap) }

-- A body that a file can express: its jump tables are absent or not empty.
def Body.Plain (body : Body) : Prop := ∀ tables, body.jumpTables = some tables → 0 < tables.size

@[simp]
theorem Body.code_filled (body : Body) (gap : Nat) : (body.filled gap).code = body.code := rfl

theorem Body.filled_of_plain {body : Body} (plain : body.Plain) (gap : Nat) :
    body.filled gap = { body with jumpTables := body.jumpTables.map (· ++ zeros gap) } := by
  unfold filled
  cases present : body.jumpTables with
  | none => rfl
  | some tables => simp [plain tables present]

theorem Body.filled_zero {body : Body} (plain : body.Plain) : body.filled 0 = body := by
  rw [filled_of_plain plain]
  cases body with
  | mk code tables => cases tables <;> simp

theorem Reader.readBody_filled {region : Region} {e : Entry} {gap : Nat} (small : e.body.code.size < 0x100000000)
    (has : region.Has e.start.toNat (Writer.bodyBytes e.start.toNat e.body)) (room : e.stop + gap ≤ align4 e.stop)
    (behind : region.Has e.stop (zeros gap)) : readBody region e.key (e.stop + gap) = .ok (e.body.filled gap) := by
  have size : e.body.code.size.toUInt32.toNat = e.body.code.size := by
    rw [toNat_toUInt32_of_lt small]
  rw [readBody, Entry.key]
  simp only [size]
  cases present : e.body.jumpTables with
  | none =>
    have stop : e.stop = e.start.toNat + e.body.code.size := by rw [Entry.stop, Placement.bodyStop, present]
    rw [Writer.bodyBytes_of_none present] at has
    rw [has.slice, ok_bind, if_neg (by rw [← stop]; omega), Body.filled, present]
    rfl
  | some tables =>
    have stop : e.stop = align4 (e.start.toNat + e.body.code.size) + tables.size := by
      rw [Entry.stop, Placement.bodyStop, present]
    rw [Writer.bodyBytes_of_some present] at has
    have code := (has.trans (Holds.prefix_append ..)).slice
    rw [Nat.add_zero] at code
    rw [code, ok_bind, Body.filled, present]
    have aligned := align4_mod (e.start.toNat + e.body.code.size)
    by_cases some : 0 < tables.size
    · have above := le_align4 (e.start.toNat + e.body.code.size)
      have first := has.trans ((Holds.suffix_append (zeros _) tables).append_right e.body.code)
      rw [size_zeros, show e.start.toNat + (e.body.code.size + (align4 (e.start.toNat + e.body.code.size) -
        (e.start.toNat + e.body.code.size))) = align4 (e.start.toNat + e.body.code.size) by omega] at first
      rw [stop] at behind
      have whole := (first.join behind).slice
      rw [ByteArray.size_append, size_zeros] at whole
      rw [if_pos (by omega), show e.stop + gap - align4 (e.start.toNat + e.body.code.size) = tables.size + gap by omega,
        whole]
      simp [some]
    · have none : align4 e.stop = e.stop := align4_of_mod (by omega)
      have empty : tables = ByteArray.empty := ByteArray.size_eq_zero_iff.mp (by omega)
      rw [if_neg (by omega)]
      simp [empty]

-- Where the space of an entry ends, given the entries behind it.
def nextStart (last : Nat) : List Entry → Nat
  | [] => last
  | e :: _ => e.start.toNat

-- The ends of all spaces, the last one at `last`.
def spaces (last : Nat) : List Entry → List Nat
  | [] => []
  | _ :: rest => nextStart last rest :: spaces last rest

-- What is read from the spaces.
def readBack (last : Nat) : List Entry → List Body
  | [] => []
  | e :: rest => e.body.filled (nextStart last rest - e.stop) :: readBack last rest

theorem spaces_cons (last : Nat) (e : Entry) (rest : List Entry) :
    spaces last (e :: rest) = (rest.map Entry.key).map (fun key => key.1.toNat) ++ [last] := by
  induction rest generalizing e with
  | nil => rfl
  | cons next rest ih =>
    rw [spaces, ih next]
    rfl

theorem Laid.nextStart_bounds {offset stop : Nat} {e : Entry} {rest : List Entry} (laid : Laid offset (e :: rest) stop) :
    e.stop ≤ nextStart (align4 stop) rest ∧ nextStart (align4 stop) rest ≤ align4 e.stop := by
  obtain ⟨-, -, later⟩ := laid
  cases rest with
  | nil =>
    obtain rfl : e.stop = stop := later
    exact ⟨le_align4 _, Nat.le_refl _⟩
  | cons next rest =>
    obtain ⟨start, -, -⟩ := later
    rw [nextStart, start]
    exact ⟨Nat.le_refl _, le_align4 _⟩

theorem Reader.stored_readBack {region : Region} {offset stop : Nat} {entries : List Entry}
    (laid : Laid offset entries stop)
    (inside : ∀ e ∈ entries, region.Has e.start.toNat (Writer.bodyBytes e.start.toNat e.body))
    (behind : region.Has stop (zeros (align4 stop - stop))) :
    List.Forall₂ (Stored region) ((entries.map Entry.key).zip (spaces (align4 stop) entries))
      (readBack (align4 stop) entries) := by
  induction entries generalizing offset with
  | nil => exact .nil
  | cons e rest ih =>
    obtain ⟨low, high⟩ := laid.nextStart_bounds
    obtain ⟨here, others⟩ := List.forall_mem_cons.mp inside
    have gap : region.Has e.stop (zeros (nextStart (align4 stop) rest - e.stop)) := by
      obtain ⟨-, -, later⟩ := laid
      cases rest with
      | nil =>
        obtain rfl : e.stop = stop := later
        exact behind
      | cons next rest =>
        have tight : nextStart (align4 stop) (next :: rest) - e.stop = 0 := by rw [nextStart, later.1, Nat.sub_self]
        have nothing := here.trans (Holds.empty _)
        rwa [Writer.size_bodyBytes, ← Entry.stop, ← zeros_zero, ← tight] at nothing
    refine .cons ?_ (ih laid.2.2 others)
    have read := readBody_filled laid.2.1 here (by omega) gap
    rwa [Nat.add_sub_cancel' low] at read

end CodeImage
