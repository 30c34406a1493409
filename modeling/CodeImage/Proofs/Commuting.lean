import CodeImage.Proofs.Confinement

-- An edit looks at the image and at the code of its own function, and changes nothing but this code.

namespace CodeImage

namespace Edits

variable {first : UInt32 × Rope} {rest : Edits} {id : UInt32}

theorem put_of_lt (below : id < first.1) (rope : Rope) :
    put id rope (first :: rest) = (id, rope) :: first :: rest := by
  simp [put, below]

theorem put_of_eq (same : id = first.1) (rope : Rope) : put id rope (first :: rest) = (id, rope) :: rest := by
  simp [put, same]

theorem put_of_gt (above : first.1 < id) (rope : Rope) :
    put id rope (first :: rest) = first :: put id rope rest := by
  simp [put, UInt32.lt_asymm above, (UInt32.ne_of_lt above).symm]

theorem below_or_same_or_above (a b : UInt32) : a < b ∨ a = b ∨ b < a := by
  by_cases same : a = b
  · exact .inr (.inl same)
  · rcases UInt32.lt_or_lt_of_ne same with below | above
    · exact .inl below
    · exact .inr (.inr above)

-- The smaller number stands in front, whichever comes first.
theorem put_comm_of_lt (edits : Edits) {a b : UInt32} (order : a < b) (ropeA ropeB : Rope) :
    (edits.put a ropeA).put b ropeB = (edits.put b ropeB).put a ropeA := by
  induction edits with
  | nil =>
    have last : put b ropeB [(a, ropeA)] = [(a, ropeA), (b, ropeB)] := put_of_gt order ropeB
    have front : put a ropeA [(b, ropeB)] = [(a, ropeA), (b, ropeB)] := put_of_lt order ropeA
    exact last.trans front.symm
  | cons first rest ih =>
    rcases below_or_same_or_above a first.1 with below | same | above
    · rw [put_of_lt below, put_of_gt order]
      rcases below_or_same_or_above b first.1 with belowB | sameB | aboveB
      · rw [put_of_lt belowB, put_of_lt order]
      · rw [put_of_eq sameB, put_of_lt order]
      · rw [put_of_gt aboveB, put_of_lt below]
    · have aboveB : first.1 < b := same ▸ order
      rw [put_of_eq same, put_of_gt order, put_of_gt aboveB, put_of_eq same]
    · have aboveB : first.1 < b := UInt32.lt_trans above order
      rw [put_of_gt above, put_of_gt aboveB, put_of_gt aboveB, put_of_gt above, ih]

theorem put_comm (edits : Edits) {a b : UInt32} (apart : a ≠ b) (ropeA ropeB : Rope) :
    (edits.put a ropeA).put b ropeB = (edits.put b ropeB).put a ropeA := by
  rcases UInt32.lt_or_lt_of_ne apart with below | above
  · exact put_comm_of_lt edits below ropeA ropeB
  · exact (put_comm_of_lt edits above ropeB ropeA).symm

end Edits

namespace Session

-- New code for a function, or the reason why there is none.
def settle (session : Session) (id : UInt32) (outcome : Except PatchError Rope) : Session × Reply :=
  session.given outcome fun rope => ({ session with edits := session.edits.put id rope }, .ok none)

-- What an edit puts into the place of a range, given the code of its function.
def newCode (start stop : Nat) (value : Rope) (code : Except PatchError Rope) : Except PatchError Rope := do
  let rope ← code
  checkRange start stop rope.size
  return rope.replace start stop value

theorem replied_edit (session : Session) (id : UInt32) (start stop : Nat) (value : Rope) :
    replied (session.edit id start stop value) = session.settle id (newCode start stop value (session.code id)) := by
  unfold edit newCode settle
  cases session.code id with
  | error e => rfl
  | ok rope =>
    cases range : checkRange start stop rope.size with
    | error e => simp [bind, Except.bind, range, replied, Except.map]
    | ok _ => simp [bind, Except.bind, range, replied, Except.map, pure, Except.pure]

-- The code that an operation leaves its function with. It depends on the image and on the code so far.
def Operation.outcome (image : Image) (code : Except PatchError Rope) : Operation → Except PatchError Rope
  | .addString _ | .createFunction _ => code
  | .replaceBytes _ start stop data => newCode start stop (.leaf data) code
  | .insertBytes _ start data => newCode start start (.leaf data) code
  | .removeBytes _ start stop => newCode start stop .empty code
  | .replaceInstructions id start stop insns => do
    discard (liftImage (image.function id))
    let data ← liftImage (Instruction.encodeAll insns)
    newCode start stop (.leaf data) code

theorem perform_edit {operation : Operation} {id : UInt32} (target : operation.target? = some id) (session : Session) :
    session.perform operation = session.settle id (operation.outcome session.image (session.code id)) := by
  cases operation with
  | addString text => cases target
  | createFunction spec => cases target
  | replaceBytes _ start stop data =>
    cases target
    exact replied_edit session id start stop (.leaf data)
  | insertBytes _ start data =>
    cases target
    exact replied_edit session id start start (.leaf data)
  | removeBytes _ start stop =>
    cases target
    exact replied_edit session id start stop .empty
  | replaceInstructions _ start stop insns =>
    cases target
    simp only [perform, replaceInstructions, Operation.outcome]
    cases liftImage (session.image.function id) with
    | error e => rfl
    | ok func =>
      cases liftImage (Instruction.encodeAll insns) with
      | error e => rfl
      | ok data => exact replied_edit session id start stop (.leaf data)

section Settling

variable (session : Session) (id : UInt32) (outcome : Except PatchError Rope)

@[simp]
theorem image_settle : (session.settle id outcome).1.image = session.image := by
  cases outcome with
  | error e => rfl
  | ok rope => rfl

theorem code_settle {other : UInt32} (apart : id ≠ other) :
    (session.settle id outcome).1.code other = session.code other := by
  cases outcome with
  | error e => rfl
  | ok rope =>
    unfold code settle
    simp only [given_ok, Edits.get?_put, if_neg apart]

-- The reply is about the new code and not about the session.
theorem reply_settle (before : Session) : (session.settle id outcome).2 = (before.settle id outcome).2 := by
  cases outcome with
  | error e => rfl
  | ok rope => rfl

theorem settle_comm {other : UInt32} (apart : id ≠ other) (outcome' : Except PatchError Rope) :
    ((session.settle id outcome).1.settle other outcome').1 = ((session.settle other outcome').1.settle id outcome).1 := by
  cases outcome with
  | error e =>
    cases outcome' with
    | error e' => rfl
    | ok rope' => rfl
  | ok rope =>
    cases outcome' with
    | error e' => rfl
    | ok rope' => simp only [settle, given_ok, Edits.put_comm session.edits apart rope rope']

end Settling

variable {a b : Operation} {i j : UInt32}

-- An edit of another function is not noticed.
theorem reply_after (targetA : a.target? = some i) (targetB : b.target? = some j) (apart : i ≠ j) (session : Session) :
    ((session.perform a).1.perform b).2 = (session.perform b).2 := by
  simp only [perform_edit targetA, perform_edit targetB, image_settle, code_settle _ _ _ apart]
  exact reply_settle _ _ _ _

theorem perform_comm (targetA : a.target? = some i) (targetB : b.target? = some j) (apart : i ≠ j) (session : Session) :
    ((session.perform a).1.perform b).1 = ((session.perform b).1.perform a).1 := by
  simp only [perform_edit targetA, perform_edit targetB, image_settle, code_settle _ _ _ apart,
    code_settle _ _ _ apart.symm]
  exact settle_comm session i _ apart _

-- The operations of a run, each with the reply that it gets.
def replies (session : Session) : List Operation → List (Operation × Reply)
  | [] => []
  | operation :: rest => (operation, (session.perform operation).2) :: (session.perform operation).1.replies rest

-- What concerns one function, in order.
def operationsOn (id : UInt32) (operations : List Operation) : List Operation :=
  operations.filter fun operation => operation.target? == some id

def repliesOn (id : UInt32) (log : List (Operation × Reply)) : List (Operation × Reply) :=
  log.filter fun entry => entry.1.target? == some id

-- Two runs that nobody can tell apart by the replies about any one function, nor by the session that they lead to.
structure Alike (session : Session) (first second : List Operation) : Prop where
  session_eq : session.run first = session.run second
  replies_eq : ∀ id, repliesOn id (session.replies first) = repliesOn id (session.replies second)

namespace Alike

variable {session : Session} {first second third : List Operation}

theorem refl (session : Session) (operations : List Operation) : Alike session operations operations :=
  ⟨rfl, fun _ => rfl⟩

theorem symm (one : Alike session first second) : Alike session second first :=
  ⟨one.session_eq.symm, fun id => (one.replies_eq id).symm⟩

theorem trans (one : Alike session first second) (two : Alike session second third) : Alike session first third :=
  ⟨one.session_eq.trans two.session_eq, fun id => (one.replies_eq id).trans (two.replies_eq id)⟩

theorem cons (operation : Operation) (later : Alike (session.perform operation).1 first second) :
    Alike session (operation :: first) (operation :: second) := by
  refine ⟨later.session_eq, ?_⟩
  intro id
  simp only [repliesOn, replies, List.filter_cons]
  split
  · exact congrArg _ (later.replies_eq id)
  · exact later.replies_eq id

theorem swap (targetA : a.target? = some i) (targetB : b.target? = some j) (apart : i ≠ j) (session : Session)
    (rest : List Operation) : Alike session (a :: b :: rest) (b :: a :: rest) := by
  have state := perform_comm targetA targetB apart session
  refine ⟨congrArg (fun next : Session => next.run rest) state, ?_⟩
  intro id
  simp only [repliesOn, replies, state, reply_after targetA targetB apart, reply_after targetB targetA apart.symm,
    List.filter_cons, targetA, targetB]
  -- At most one of the two operations concerns the function.
  by_cases here : i = id
  · have elsewhere : j ≠ id := here ▸ apart.symm
    simp [here, elsewhere]
  · simp [here]

-- An operation moves in front of operations on other functions.
theorem front {operation : Operation} {id : UInt32} (target : operation.target? = some id) {before : List Operation}
    (others : ∀ other ∈ before, ∃ j, other.target? = some j ∧ j ≠ id) (session : Session) (rest : List Operation) :
    Alike session (before ++ operation :: rest) (operation :: (before ++ rest)) := by
  induction before generalizing session with
  | nil => exact refl session _
  | cons first before ih =>
    obtain ⟨⟨j, targetFirst, apart⟩, others⟩ := List.forall_mem_cons.mp others
    exact (cons first (ih others _)).trans (swap targetFirst target apart session _)

end Alike

-- The order among the operations on one function decides.
theorem alike_of_operationsOn {first second : List Operation} (edits : ∀ operation ∈ first, operation.target?.isSome = true)
    (edits' : ∀ operation ∈ second, operation.target?.isSome = true)
    (same : ∀ id, operationsOn id first = operationsOn id second) (session : Session) : Alike session first second := by
  induction first generalizing second session with
  | nil =>
    cases second with
    | nil => exact .refl session []
    | cons operation rest =>
      obtain ⟨id, target⟩ := Option.isSome_iff_exists.mp (edits' operation List.mem_cons_self)
      have missing := same id
      simp [operationsOn, target] at missing
  | cons operation rest ih =>
    obtain ⟨edit, edits⟩ := List.forall_mem_cons.mp edits
    obtain ⟨id, target⟩ := Option.isSome_iff_exists.mp edit
    -- The operation is the first one on its function in the other run too.
    have head : operationsOn id second = operation :: operationsOn id rest := by
      rw [← same id]
      simp [operationsOn, target]
    obtain ⟨before, after, rfl, none, -, later⟩ := List.filter_eq_cons_iff.mp head
    have others : ∀ other ∈ before, ∃ j, other.target? = some j ∧ j ≠ id := by
      intro other member
      obtain ⟨j, targetOther⟩ := Option.isSome_iff_exists.mp (edits' other (List.mem_append_left _ member))
      refine ⟨j, targetOther, ?_⟩
      rintro rfl
      exact none other member (by simp [targetOther])
    have left : ∀ other, operationsOn other rest = operationsOn other (before ++ after) := by
      intro other
      have all := same other
      by_cases here : id = other
      · subst here
        simp only [operationsOn, List.filter_append, List.filter_eq_nil_iff.mpr none, List.nil_append]
        exact later.symm
      · simpa [operationsOn, target, here] using all
    have edits'' : ∀ operation ∈ before ++ after, operation.target?.isSome = true := by
      intro other member
      apply edits'
      rcases List.mem_append.mp member with one | two
      · exact List.mem_append_left _ one
      · exact List.mem_append_right _ (List.mem_cons_of_mem _ two)
    exact (Alike.cons operation (ih edits edits'' left _)).trans (Alike.front target others session after).symm

-- Edits of different functions commute: only the order among the edits of one function counts.
theorem edits_commute (session : Session) {first second : List Operation}
    (edits : ∀ operation ∈ first ++ second, operation.target?.isSome = true)
    (same : ∀ id, operationsOn id first = operationsOn id second) :
    -- Every operation gets the same reply, and the commits agree in every field.
    (∀ id, repliesOn id (session.replies first) = repliesOn id (session.replies second)) ∧
    (session.run first).commit = (session.run second).commit := by
  obtain ⟨edits, edits'⟩ := List.forall_mem_append.mp edits
  have alike := alike_of_operationsOn edits edits' same session
  exact ⟨alike.replies_eq, congrArg commit alike.session_eq⟩

-- Two functions that share their code, edited in turn or one after the other. One edit is out of range.
def sampleInTurn : List Operation :=
  [.replaceBytes 1 0 2 ⟨#[119, 0]⟩, .insertBytes 0 4 ⟨#[92, 0]⟩, .removeBytes 1 3 9, .removeBytes 0 0 2]

def sampleOneByOne : List Operation :=
  [.insertBytes 0 4 ⟨#[92, 0]⟩, .removeBytes 0 0 2, .replaceBytes 1 0 2 ⟨#[119, 0]⟩, .removeBytes 1 3 9]

theorem sample_edits_commute :
    (∀ id, repliesOn id ((start sampleShared).replies sampleInTurn) =
      repliesOn id ((start sampleShared).replies sampleOneByOne)) ∧
    ((start sampleShared).run sampleInTurn).commit = ((start sampleShared).run sampleOneByOne).commit ∧
    ((start sampleShared).run sampleInTurn).commit.bodies =
      #[⟨⟨#[118, 0, 92, 0]⟩, none⟩, ⟨⟨#[92, 0, 92, 0]⟩, none⟩, ⟨⟨#[119, 0, 92, 0]⟩, none⟩] := by
  have edits : ∀ operation ∈ sampleInTurn ++ sampleOneByOne, operation.target?.isSome = true := by
    simp [sampleInTurn, sampleOneByOne, Operation.target?]
  have same (id : UInt32) : operationsOn id sampleInTurn = operationsOn id sampleOneByOne := by
    by_cases first : (0 : UInt32) = id
    · subst first
      rfl
    · by_cases second : (1 : UInt32) = id
      · subst second
        rfl
      · simp [operationsOn, sampleInTurn, sampleOneByOne, Operation.target?, first, second]
  obtain ⟨replies, commits⟩ := edits_commute (start sampleShared) edits same
  exact ⟨replies, commits, by decide +kernel⟩

end Session
end CodeImage
