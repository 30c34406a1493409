import CodeImage.Proofs.Trailer

namespace CodeImage

-- A body at its place in the file, with the number that functions know it by.
structure Entry where
  id : UInt32
  start : UInt32
  body : Body

namespace Entry

def key (e : Entry) : BodyKey := (e.start, e.body.code.size.toUInt32)
def codeStop (e : Entry) : Nat := e.start.toNat + e.body.code.size
def stop (e : Entry) : Nat := Placement.bodyStop e.start.toNat e.body

theorem codeStop_le_stop (e : Entry) : e.codeStop ≤ e.stop := by
  unfold codeStop stop Placement.bodyStop
  split
  · exact Nat.le_refl _
  · have := le_align4 (e.start.toNat + e.body.code.size)
    omega

end Entry

-- The entries follow each other from `offset` on, and the last one ends at `stop`.
def Laid : Nat → List Entry → Nat → Prop
  | offset, [], stop => offset = stop
  | offset, e :: rest, stop => e.start.toNat = offset ∧ e.body.code.size < 0x100000000 ∧ Laid e.stop rest stop

namespace Laid

variable {offset stop : Nat} {entries : List Entry}

theorem le_stop (laid : Laid offset entries stop) : offset ≤ stop := by
  induction entries generalizing offset with
  | nil => exact Nat.le_of_eq laid
  | cons e rest ih =>
    obtain ⟨start, -, later⟩ := laid
    have low : e.start.toNat ≤ e.stop := Nat.le_trans (Nat.le_add_right ..) e.codeStop_le_stop
    have high := ih later
    omega

theorem bounds (laid : Laid offset entries stop) :
    ∀ e ∈ entries, offset ≤ e.start.toNat ∧ e.stop ≤ stop ∧ e.body.code.size < 0x100000000 := by
  induction entries generalizing offset with
  | nil => intro e member; cases member
  | cons e rest ih =>
    obtain ⟨start, small, later⟩ := laid
    have low : e.start.toNat ≤ e.stop := Nat.le_trans (Nat.le_add_right ..) e.codeStop_le_stop
    rw [List.forall_mem_cons]
    refine ⟨⟨by omega, later.le_stop, small⟩, ?_⟩
    intro e' member
    obtain ⟨above, below, size⟩ := ih later e' member
    exact ⟨by omega, below, size⟩

theorem apart (laid : Laid offset entries stop) {a b : Entry} (left : a ∈ entries) (right : b ∈ entries) :
    a = b ∨ a.stop ≤ b.start.toNat ∨ b.stop ≤ a.start.toNat := by
  induction entries generalizing offset with
  | nil => cases left
  | cons e rest ih =>
    obtain ⟨-, -, later⟩ := laid
    rcases List.mem_cons.mp left with rfl | inside
    · rcases List.mem_cons.mp right with rfl | inside'
      · exact .inl rfl
      · exact .inr (.inl (later.bounds b inside').1)
    · rcases List.mem_cons.mp right with rfl | inside'
      · exact .inr (.inr (later.bounds a inside).1)
      · exact ih later inside inside'

end Laid

theorem size_eq_of_key {a b : Entry} (left : a.body.code.size < 0x100000000) (right : b.body.code.size < 0x100000000)
    (same : a.key = b.key) : a.start = b.start ∧ a.body.code.size = b.body.code.size := by
  obtain ⟨start, size⟩ := Prod.mk.inj same
  refine ⟨start, ?_⟩
  have sizes := congrArg UInt32.toNat size
  rwa [toNat_toUInt32_of_lt left, toNat_toUInt32_of_lt right] at sizes

-- Two entries with one key are one entry, unless their code is empty.
theorem Laid.eq_of_key {offset stop : Nat} {entries : List Entry} (laid : Laid offset entries stop) {a b : Entry}
    (left : a ∈ entries) (right : b ∈ entries) (same : a.key = b.key) : a = b ∨ a.body.code.size = 0 := by
  obtain ⟨start, size⟩ := size_eq_of_key (laid.bounds a left).2.2 (laid.bounds b right).2.2 same
  rcases laid.apart left right with equal | apart
  · exact .inl equal
  · right
    have first := a.codeStop_le_stop
    have second := b.codeStop_le_stop
    unfold Entry.codeStop at first second
    rw [start] at first apart
    omega

-- The keys in the order of their first appearance, behind those already seen.
def addKey (keys : List BodyKey) (key : BodyKey) : List BodyKey := if keys.contains key then keys else keys ++ [key]

theorem addKey_of_mem {keys : List BodyKey} {key : BodyKey} (seen : key ∈ keys) : addKey keys key = keys := by
  simp [addKey, seen]

theorem addKey_of_not_mem {keys : List BodyKey} {key : BodyKey} (fresh : key ∉ keys) :
    addKey keys key = keys ++ [key] := by
  simp [addKey, fresh]

theorem mem_addKey_iff {keys : List BodyKey} {key other : BodyKey} :
    other ∈ addKey keys key ↔ other ∈ keys ∨ other = key := by
  by_cases seen : key ∈ keys
  · rw [addKey_of_mem seen]
    constructor
    · exact .inl
    · rintro (old | rfl)
      · exact old
      · exact seen
  · rw [addKey_of_not_mem seen, List.mem_append, List.mem_singleton]

theorem mem_addKey (keys : List BodyKey) (key : BodyKey) : key ∈ addKey keys key := mem_addKey_iff.mpr (.inr rfl)

theorem Reader.bodyKeys_eq (headers : List FunctionHeader) :
    Reader.bodyKeys headers = (headers.map Reader.bodyKey).foldl addKey [] := by
  rw [List.foldl_map]
  rfl

-- Entries with one key are kept once: the last of them.
def merged : List Entry → List Entry
  | [] => []
  | [e] => [e]
  | e :: next :: rest => if e.key = next.key then merged (next :: rest) else e :: merged (next :: rest)

theorem mem_of_mem_merged {entries : List Entry} {e : Entry} (member : e ∈ merged entries) : e ∈ entries := by
  fun_induction merged entries with
  | case1 => exact member
  | case2 => exact member
  | case3 first next rest same ih => exact List.mem_cons_of_mem _ (ih member)
  | case4 first next rest other ih =>
    rcases List.mem_cons.mp member with rfl | later
    · exact List.mem_cons_self
    · exact List.mem_cons_of_mem _ (ih later)

-- An entry that shares its key with the next one takes no room.
theorem Laid.stop_eq_start {offset stop : Nat} {e next : Entry} {rest : List Entry}
    (laid : Laid offset (e :: next :: rest) stop) (same : e.key = next.key) : e.stop = offset := by
  obtain ⟨start, -, nextStart, -, -⟩ := laid
  rw [← nextStart, ← start, (Prod.mk.inj same).1]

theorem Laid.merged {offset stop : Nat} {entries : List Entry} (laid : Laid offset entries stop) :
    Laid offset (merged entries) stop := by
  fun_induction CodeImage.merged entries generalizing offset with
  | case1 => exact laid
  | case2 => exact laid
  | case3 e next rest same ih =>
    have here := laid.stop_eq_start same
    obtain ⟨-, -, later⟩ := laid
    rw [here] at later
    exact ih later
  | case4 e next rest other ih =>
    obtain ⟨start, small, later⟩ := laid
    exact ⟨start, small, ih later⟩

-- A key that the next entry does not have is not used again.
theorem Laid.key_not_mem {offset stop : Nat} {e next : Entry} {rest : List Entry}
    (laid : Laid offset (e :: next :: rest) stop) (other : e.key ≠ next.key) :
    e.key ∉ (next :: rest).map Entry.key := by
  intro again
  obtain ⟨e', member, same⟩ := List.mem_map.mp again
  rcases List.mem_cons.mp member with rfl | member
  · exact other same.symm
  · obtain ⟨-, small, nextStart, nextSmall, later⟩ := laid
    obtain ⟨low, -, small'⟩ := later.bounds e' member
    obtain ⟨start, size⟩ := size_eq_of_key small' small same
    have first := e.codeStop_le_stop
    have second := next.codeStop_le_stop
    unfold Entry.codeStop at first second
    rw [start] at low
    -- Nothing lies between the two, so the entry between them is empty as well.
    have empty : e.body.code.size = 0 ∧ next.body.code.size = 0 ∧ e.start.toNat = next.start.toNat := by omega
    apply other
    rw [Entry.key, Entry.key, empty.1, empty.2.1, UInt32.toNat_inj.mp empty.2.2]

theorem foldl_addKey_merged {offset stop : Nat} {entries : List Entry} (laid : Laid offset entries stop)
    {keys : List BodyKey} (fresh : ∀ e ∈ entries, e.key ∉ keys) :
    (entries.map Entry.key).foldl addKey keys = keys ++ (merged entries).map Entry.key := by
  fun_induction merged entries generalizing offset keys with
  | case1 => simp
  | case2 e => simp [addKey_of_not_mem (fresh e List.mem_cons_self)]
  | case3 e next rest same ih =>
    have drop : (e :: next :: rest).map Entry.key = next.key :: (next :: rest).map Entry.key := by simp [same]
    rw [drop, List.foldl_cons, List.map_cons, List.foldl_cons, addKey_of_mem (mem_addKey keys next.key)]
    exact ih laid.2.2 fun e' member => fresh e' (List.mem_cons_of_mem _ member)
  | case4 e next rest other ih =>
    have unused := laid.key_not_mem other
    rw [List.map_cons, List.foldl_cons, addKey_of_not_mem (fresh e List.mem_cons_self), ih laid.2.2]
    · simp
    · intro e' member again
      rcases List.mem_append.mp again with old | own
      · exact fresh e' (List.mem_cons_of_mem _ member) old
      · rw [List.mem_singleton] at own
        exact unused (own ▸ List.mem_map_of_mem member)

-- The header of a function whose body starts at `start`, before the trailers are placed.
def placedHeader (func : Func) (start : UInt32) (body : Body) : FunctionHeader :=
  { func.header with
    offset := start, codeSize := body.code.size.toUInt32, infoOffset := 0, overflowed := false
    hasExceptionHandler := func.handlers.isSome, hasDebugInfo := func.debug.isSome }

-- Independent rules of placing: what each function refers to, what it adds to the bodies, and where
-- they end. `known` says where a body lies that is already placed.
inductive Placing (image : Image) :
    (UInt32 → Option UInt32) → Nat → List Func → List Placement → List Entry → Nat → Prop where
  | nil {known : UInt32 → Option UInt32} {offset : Nat} : Placing image known offset [] [] [] offset
  | shared {known : UInt32 → Option UInt32} {offset stop : Nat} {func : Func} {rest : List Func}
      {placements : List Placement} {entries : List Entry} {start : UInt32} {body : Body}
      (found : image.bodies[func.body.toNat]? = some body) (small : body.code.size < 0x100000000)
      (old : known func.body = some start) (later : Placing image known offset rest placements entries stop) :
      Placing image known offset (func :: rest)
        (⟨placedHeader func start body, none, Placement.sizeOfTrailer func⟩ :: placements) entries stop
  | fresh {known : UInt32 → Option UInt32} {offset stop : Nat} {func : Func} {rest : List Func}
      {placements : List Placement} {entries : List Entry} {start : UInt32} {body : Body}
      (found : image.bodies[func.body.toNat]? = some body) (small : body.code.size < 0x100000000)
      (new : known func.body = none) (here : start.toNat = offset)
      (later : Placing image (Function.update known func.body (some start)) (Placement.bodyStop offset body) rest
        placements entries stop) :
      Placing image known offset (func :: rest)
        (⟨placedHeader func start body, some body, Placement.sizeOfTrailer func⟩ :: placements)
        (⟨func.body, start, body⟩ :: entries) stop

-- What an array of places knows.
def knownIn (starts : Array (Option UInt32)) (id : UInt32) : Option UInt32 := (starts[id.toNat]?).join

theorem knownIn_setIfInBounds {starts : Array (Option UInt32)} {id : UInt32} (start : UInt32)
    (inside : id.toNat < starts.size) :
    knownIn (starts.setIfInBounds id.toNat (some start)) = Function.update (knownIn starts) id (some start) := by
  funext other
  by_cases same : other = id
  · subst same
    simp [knownIn, inside]
  · have apart : id.toNat ≠ other.toNat := fun equal => same (UInt32.toNat_inj.mp equal).symm
    rw [Function.update_of_ne same, knownIn, knownIn, Array.getElem?_setIfInBounds_ne apart]

-- Where a body lies, if it is placed now or was placed before.
def startFor (known : Option UInt32) (offset : Nat) : Except ImageError UInt32 :=
  match known with
  | some start => .ok start
  | none => toWord "bytecode" offset

theorem placeBodies_cons (image : Image) (func : Func) (rest : List Func) (id offset : Nat)
    (starts : Array (Option UInt32)) {body : Body} (found : image.bodies[func.body.toNat]? = some body) :
    Placement.placeBodies image (func :: rest) id offset starts = (do
      let start ← startFor (knownIn starts func.body) offset
      let codeSize ← toWord "bytecode size" body.code.size
      let result ← Placement.placeBodies image rest (id + 1)
        (if (knownIn starts func.body).isSome then offset else Placement.bodyStop offset body)
        (starts.setIfInBounds func.body.toNat (some start))
      return (⟨{ placedHeader func start body with codeSize },
        if (knownIn starts func.body).isSome then none else some body,
        Placement.sizeOfTrailer func⟩ :: result.1, result.2)) := by
  simp only [Placement.placeBodies, found]
  rcases known : knownIn starts func.body with _ | start
  · unfold knownIn at known
    simp only [known]
    rfl
  · unfold knownIn at known
    simp only [known]
    rfl

-- One step of placing: where the body of a function lies, and what is left to place.
theorem placeBodies_cons_ok {image : Image} {func : Func} {rest : List Func} {id offset stop : Nat}
    {starts : Array (Option UInt32)} {placements : List Placement} :
    Placement.placeBodies image (func :: rest) id offset starts = .ok (placements, stop) ↔
      ∃ body start later, image.bodies[func.body.toNat]? = some body ∧ body.code.size < 0x100000000 ∧
        startFor (knownIn starts func.body) offset = .ok start ∧
        Placement.placeBodies image rest (id + 1)
          (if (knownIn starts func.body).isSome then offset else Placement.bodyStop offset body)
          (starts.setIfInBounds func.body.toNat (some start)) = .ok (later, stop) ∧
        placements = ⟨placedHeader func start body, if (knownIn starts func.body).isSome then none else some body,
          Placement.sizeOfTrailer func⟩ :: later := by
  cases found : image.bodies[func.body.toNat]? with
  | none =>
    constructor
    · intro done
      rw [Placement.placeBodies, found] at done
      cases done
    · rintro ⟨body, start, later, present, -⟩
      cases present
  | some body =>
    rw [placeBodies_cons image func rest id offset starts found, bind_ok_iff]
    constructor
    · rintro ⟨start, placed, more⟩
      obtain ⟨codeSize, small, more⟩ := bind_ok_iff.mp more
      obtain ⟨result, later, last⟩ := bind_ok_iff.mp more
      obtain ⟨bound, rfl⟩ := toWord_ok_iff.mp small
      cases last
      exact ⟨body, start, result.1, rfl, bound, placed, later, rfl⟩
    · rintro ⟨body', start, later, present, bound, placed, done, rfl⟩
      cases present
      exact ⟨start, placed, bind_ok_iff.mpr ⟨_, toWord_ok_iff.mpr ⟨bound, rfl⟩, bind_ok_iff.mpr ⟨(later, stop), done, rfl⟩⟩⟩

theorem placeBodies_exact {image : Image} {functions : List Func} {id offset stop : Nat}
    {starts : Array (Option UInt32)} {placements : List Placement} (size : starts.size = image.bodies.size) :
    Placement.placeBodies image functions id offset starts = .ok (placements, stop) ↔
      ∃ entries, Placing image (knownIn starts) offset functions placements entries stop := by
  induction functions generalizing id offset starts placements with
  | nil =>
    constructor
    · intro done
      cases done
      exact ⟨[], .nil⟩
    · rintro ⟨entries, placing⟩
      cases placing
      rfl
  | cons func rest ih =>
    have grown (start : UInt32) : (starts.setIfInBounds func.body.toNat (some start)).size = image.bodies.size := by
      rw [Array.size_setIfInBounds, size]
    -- After the step the array knows the body of the function too.
    have learned {body : Body} (found : image.bodies[func.body.toNat]? = some body) (start : UInt32) :
        knownIn (starts.setIfInBounds func.body.toNat (some start)) =
          Function.update (knownIn starts) func.body (some start) := by
      apply knownIn_setIfInBounds
      rw [size]
      exact (Array.getElem?_eq_some_iff.mp found).1
    rw [placeBodies_cons_ok]
    constructor
    · rintro ⟨body, start, later, found, bound, placed, done, rfl⟩
      obtain ⟨entries, placing⟩ := (ih (grown start)).mp done
      rw [learned found] at placing
      cases known : knownIn starts func.body with
      | some old =>
        have same : Function.update (knownIn starts) func.body (some old) = knownIn starts := by
          rw [← known, Function.update_eq_self]
        rw [known] at placed placing
        cases placed
        rw [same] at placing
        exact ⟨entries, .shared found bound known placing⟩
      | none =>
        rw [known] at placed placing
        exact ⟨_, .fresh found bound known (toNat_of_toWord placed) placing⟩
    · rintro ⟨entries, placing⟩
      cases placing with
      | @shared _ _ _ _ _ later _ start body found bound old placing =>
        rw [← Function.update_eq_self func.body (knownIn starts), old, ← learned found] at placing
        refine ⟨body, start, later, found, bound, ?_, (ih (grown start)).mpr ⟨entries, ?_⟩, ?_⟩
        · rw [old]
          rfl
        · rw [old]
          exact placing
        · rw [old]
          rfl
      | @fresh _ _ _ _ _ later entries start body found bound new here placing =>
        rw [← learned found] at placing
        refine ⟨body, start, later, found, bound, ?_, (ih (grown start)).mpr ⟨entries, ?_⟩, ?_⟩
        · rw [new, ← here]
          exact toWord_ok_iff.mpr ⟨start.toNat_lt, UInt32.ofNat_toNat.symm⟩
        · rw [new]
          exact placing
        · rw [new]
          rfl

namespace Placing

variable {image : Image} {known : UInt32 → Option UInt32} {offset stop : Nat} {functions : List Func}
  {placements : List Placement} {entries : List Entry}

theorem laid (placing : Placing image known offset functions placements entries stop) : Laid offset entries stop := by
  induction placing with
  | nil => rfl
  | shared _ _ _ _ ih => exact ih
  | fresh _ small _ here _ ih => exact ⟨here, small, by rwa [Entry.stop, here]⟩

theorem bodies (placing : Placing image known offset functions placements entries stop) :
    placements.filterMap (·.body) = entries.map Entry.body := by
  induction placing with
  | nil => rfl
  | shared _ _ _ _ ih => simpa using ih
  | fresh _ _ _ _ _ ih => simpa using ih

theorem found (placing : Placing image known offset functions placements entries stop) :
    ∀ e ∈ entries, image.bodies[e.id.toNat]? = some e.body := by
  induction placing with
  | nil => intro e member; cases member
  | shared _ _ _ _ ih => exact ih
  | fresh here _ _ _ _ ih =>
    rw [List.forall_mem_cons]
    exact ⟨here, ih⟩

theorem used (placing : Placing image known offset functions placements entries stop) :
    ∀ e ∈ entries, ∃ func ∈ functions, func.body = e.id := by
  induction placing with
  | nil => intro e member; cases member
  | shared _ _ _ _ ih =>
    intro e member
    obtain ⟨func, listed, same⟩ := ih e member
    exact ⟨func, List.mem_cons_of_mem _ listed, same⟩
  | @fresh _ _ _ func _ _ _ _ _ _ _ _ _ _ ih =>
    rw [List.forall_mem_cons]
    refine ⟨⟨func, List.mem_cons_self, rfl⟩, ?_⟩
    intro e member
    obtain ⟨other, listed, same⟩ := ih e member
    exact ⟨other, List.mem_cons_of_mem _ listed, same⟩

-- A body is added once.
theorem distinct (placing : Placing image known offset functions placements entries stop) :
    (entries.map Entry.id).Nodup ∧ ∀ e ∈ entries, known e.id = none := by
  induction placing with
  | nil => exact ⟨.nil, fun e member => absurd member (List.not_mem_nil)⟩
  | shared _ _ _ _ ih => exact ih
  | @fresh known _ _ func _ _ rest start body _ _ new _ _ ih =>
    obtain ⟨distinct, unknown⟩ := ih
    have others : ∀ e ∈ rest, e.id ≠ func.body ∧ known e.id = none := by
      intro e member
      have absent := unknown e member
      by_cases same : e.id = func.body
      · rw [same, Function.update_self] at absent
        cases absent
      · rw [Function.update_of_ne same] at absent
        exact ⟨same, absent⟩
    constructor
    · rw [List.map_cons, List.nodup_cons]
      refine ⟨?_, distinct⟩
      intro again
      obtain ⟨e, member, same⟩ := List.mem_map.mp again
      exact (others e member).1 same
    · rw [List.forall_mem_cons]
      exact ⟨new, fun e member => (others e member).2⟩

-- What each function gets: its body, and the place of that body.
theorem each (placing : Placing image known offset functions placements entries stop) :
    List.Forall₂ (fun func (p : Placement) => ∃ start body, image.bodies[func.body.toNat]? = some body ∧
      body.code.size < 0x100000000 ∧ p.header = placedHeader func start body ∧
      p.trailerSize = Placement.sizeOfTrailer func ∧
      (known func.body = some start ∨ (⟨func.body, start, body⟩ : Entry) ∈ entries)) functions placements := by
  induction placing with
  | nil => exact .nil
  | @shared _ _ _ _ _ _ _ start body found small old _ ih =>
    exact .cons ⟨start, body, found, small, rfl, rfl, .inl old⟩ ih
  | @fresh known _ _ func _ _ rest start body found small new here _ ih =>
    refine .cons ⟨start, body, found, small, rfl, rfl, .inr List.mem_cons_self⟩ (ih.imp ?_)
    rintro other p ⟨start', body', found', small', header, size, old | added⟩
    · by_cases same : other.body = func.body
      · rw [same, Function.update_self] at old
        rw [same, found] at found'
        cases old
        cases found'
        exact ⟨start, body, by rw [same, found], small, header, size, .inr (by rw [same]; exact List.mem_cons_self)⟩
      · rw [Function.update_of_ne same] at old
        exact ⟨start', body', found', small', header, size, .inl old⟩
    · exact ⟨start', body', found', small', header, size, .inr (List.mem_cons_of_mem _ added)⟩

-- What placing trailers leaves of that, when nothing was placed before.
theorem each_of_base (placing : Placing image (fun _ => none) offset functions placements entries stop)
    {placed : List Placement} (same : placed.map Placement.base = placements.map Placement.base) :
    List.Forall₂ (fun func (p : Placement) => ∃ e ∈ entries, e.id = func.body ∧
      p.base.header = placedHeader func e.start e.body ∧ p.trailerSize = Placement.sizeOfTrailer func)
      functions placed := by
  refine (forall₂_of_map_eq placing.each same).imp ?_
  rintro func p ⟨q, ⟨start, body, -, -, header, size, old | added⟩, same⟩
  · cases old
  · refine ⟨_, added, rfl, ?_, ?_⟩
    · rw [same, ← header]
      change { q.header with infoOffset := 0, overflowed := false } = q.header
      rw [header]
      rfl
    · rw [← Placement.trailerSize_base, same, Placement.trailerSize_base, size]

theorem keys (placing : Placing image known offset functions placements entries stop) {seen : List BodyKey}
    (listed : ∀ id start body, known id = some start → image.bodies[id.toNat]? = some body →
      (start, body.code.size.toUInt32) ∈ seen) :
    (placements.map fun p => Reader.bodyKey p.header).foldl addKey seen = (entries.map Entry.key).foldl addKey seen := by
  induction placing generalizing seen with
  | nil => rfl
  | @shared known _ _ func _ _ _ start body found _ old _ ih =>
    have member : Reader.bodyKey (placedHeader func start body) ∈ seen := listed _ _ _ old found
    rw [List.map_cons, List.foldl_cons, addKey_of_mem member]
    exact ih listed
  | @fresh known _ _ func _ _ _ start body found _ _ _ _ ih =>
    rw [List.map_cons, List.foldl_cons, List.map_cons, List.foldl_cons]
    apply ih
    intro id start' body' old found'
    by_cases same : id = func.body
    · rw [same, Function.update_self] at old
      rw [same, found] at found'
      cases old
      cases found'
      exact mem_addKey seen _
    · rw [Function.update_of_ne same] at old
      have member := listed id start' body' old found'
      unfold addKey
      split
      · exact member
      · exact List.mem_append_left _ member

end Placing
end CodeImage
