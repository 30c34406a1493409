import CodeImage.Proofs.Confinement
import CodeImage.Proofs.Reachable

namespace CodeImage

-- Functions and bodies that were there stay, under the numbers that they have.
structure Image.Grown (image next : Image) : Prop where
  functions : image.functions.toList <+: next.functions.toList
  bodies : image.bodies.toList <+: next.bodies.toList

namespace Image.Grown

variable {image middle next : Image}

theorem refl (image : Image) : image.Grown image := ⟨List.prefix_refl _, List.prefix_refl _⟩

theorem trans (first : image.Grown middle) (second : middle.Grown next) : image.Grown next :=
  ⟨first.functions.trans second.functions, first.bodies.trans second.bodies⟩

theorem of_eq (functions : next.functions = image.functions) (bodies : next.bodies = image.bodies) : image.Grown next := by
  refine ⟨?_, ?_⟩
  · rw [functions]
  · rw [bodies]

theorem addFunction {spec : FuncSpec} {id : UInt32} (made : image.addFunction spec = .ok (next, id)) : image.Grown next := by
  obtain ⟨-, code, -, -, rfl⟩ := Image.addFunction_exact.mp made
  refine ⟨?_, ?_⟩
  · simp
  · simp

theorem function (grown : image.Grown next) {i : Nat} {func : Func} (known : image.functions[i]? = some func) :
    next.functions[i]? = some func := by
  rw [← Array.getElem?_toList] at known ⊢
  obtain ⟨inside, here⟩ := List.getElem?_eq_some_iff.mp known
  rw [← here]
  exact List.prefix_iff_getElem?.mp grown.functions i inside

end Image.Grown

theorem Edits.length_put_le (edits : Edits) (id : UInt32) (rope : Rope) : (edits.put id rope).length ≤ edits.length + 1 := by
  induction edits with
  | nil => simp [put]
  | cons first rest ih =>
    unfold put
    split
    · simp
    · split
      · simp
      · simpa using ih

namespace Session

theorem grown_mergeStrings {session : Session} (readable : session.image.Readable) :
    session.image.Grown session.mergeStrings.image :=
  .of_eq (extended_mergeStrings readable).functions (extended_mergeStrings readable).bodies

theorem Ready.grown {session next : Session} {operation : Operation} {reply : Reply} (ready : session.Ready)
    (effect : Effect session operation next reply) : session.image.Grown next.image := by
  have merged := grown_mergeStrings ready.good.toReadable
  cases effect with
  | added text => exact .refl _
  | created made => exact merged.trans (.addFunction made)
  | notCreated _ => exact merged
  | edited _ _ _ _ => exact .refl _
  | notEdited _ => exact .refl _

theorem grown_run {image : Image} (good : image.WellFormed) (operations : List Operation) :
    image.Grown ((start image).run operations).image := by
  induction operations using List.reverseRecOn with
  | nil => exact .refl image
  | append_singleton operations operation ih =>
    rw [run_snoc]
    exact ih.trans ((ready_run good operations).grown (perform_effect _ operation))

-- The bodies that a commit of the session leads to.
def bodyCount (session : Session) : Nat := session.image.bodies.size + session.edits.length

-- A new function has a body, and a function that is edited for the first time will get one.
theorem Ready.bodyCount_le {session next : Session} {operation : Operation} {reply : Reply} (ready : session.Ready)
    (effect : Effect session operation next reply) : next.bodyCount ≤ session.bodyCount + 1 := by
  have merged : session.mergeStrings.bodyCount = session.bodyCount := by
    rw [bodyCount, (extended_mergeStrings ready.good.toReadable).bodies]
    rfl
  cases effect with
  | added text => exact Nat.le_succ _
  | created made =>
    obtain ⟨-, code, -, -, rfl⟩ := Image.addFunction_exact.mp made
    rw [← merged]
    simp only [bodyCount, Array.size_push]
    omega
  | notCreated _ =>
    rw [merged]
    exact Nat.le_succ _
  | edited _ _ _ _ => exact Nat.add_le_add_left (Edits.length_put_le _ _ _) _
  | notEdited _ => exact Nat.le_succ _

theorem bodyCount_run_le {image : Image} (good : image.WellFormed) (operations : List Operation) :
    ((start image).run operations).bodyCount ≤ image.bodies.size + operations.length := by
  induction operations using List.reverseRecOn with
  | nil => exact Nat.le_refl _
  | append_singleton operations operation ih =>
    have more := (ready_run good operations).bodyCount_le (perform_effect _ operation)
    rw [run_snoc, List.length_append]
    exact more.trans (Nat.succ_le_succ ih)

-- The function at a place has no edit that waits for the commit.
def Clean (session : Session) (i : Nat) : Prop := ∀ id : UInt32, session.isEdited id = true → id.toNat ≠ i

-- What a commit leaves alone.
structure Spared (session : Session) (next : Image) : Prop where
  size : next.functions.size = session.image.functions.size
  bodies : session.image.bodies.toList <+: next.bodies.toList
  clean : ∀ i, session.Clean i → next.functions[i]? = session.image.functions[i]?

-- What a commit makes of the code that a session shows.
structure Realised (session : Session) (next : Image) : Prop where
  code : ∀ id, liftImage ((next.bodyOf id).map Body.code) = (session.code id).map Rope.toBytes
  edited : ∀ id, session.isEdited id = true → ∃ func old rope number,
    session.image.functions[id.toNat]? = some func ∧ session.image.bodies[func.body.toNat]? = some old ∧
    session.code id = .ok rope ∧
    -- Only the number of the body and the size of the code change.
    next.functions[id.toNat]? = some (func.withCode number rope.toBytes.size) ∧
    next.bodies[number.toNat]? = some ⟨rope.toBytes, old.jumpTables⟩ ∧
    -- The body is new, and no other function refers to it.
    session.image.bodies.size ≤ number.toNat ∧
    ∀ i other, i ≠ id.toNat → next.functions[i]? = some other → other.body ≠ number

namespace Committed

variable {image next : Image} {edits : Edits} {id : UInt32} {func : Func} {rope : Rope}

theorem bodies_grown (done : Committed image edits next) : image.bodies.toList <+: next.bodies.toList := by
  rw [List.prefix_iff_getElem?]
  intro i inside
  rw [Array.length_toList] at inside
  simp [done.bodies i inside, inside]

-- A function without an edit has the body that it had.
theorem bodyOf_clean (done : Committed image edits next) (sorted : edits.Sorted) (good : image.WellFormed)
    (none : edits.get? id = none) : next.bodyOf id = image.bodyOf id := by
  have same := done.kept_of_get? sorted none
  unfold Image.bodyOf Image.function
  rw [same]
  cases known : image.functions[id.toNat]? with
  | none => rfl
  | some func => simp only [done.bodies _ (good.bodies func (Array.mem_of_getElem? known))]

-- The body that an edited function gets.
theorem body_edited (done : Committed image edits next) (few : next.bodies.size ≤ 0x100000000)
    (known : image.functions[id.toNat]? = some func) (edit : edits.get? id = some rope) :
    ∃ k number, edits[k]? = some (id, rope) ∧ number.toNat = image.bodies.size + k ∧
      next.functions[id.toNat]? = some (func.withCode number rope.toBytes.size) ∧
      next.bodies[number.toNat]? = some ⟨rope.toBytes, image.bodies[func.body.toNat]?.bind Body.jumpTables⟩ := by
  obtain ⟨k, place⟩ := List.mem_iff_getElem?.mp (Edits.mem_of_get? edit)
  obtain ⟨function, body⟩ := done.edited k id rope func place known
  have number := done.toNat_number few place
  refine ⟨k, _, place, number, function, ?_⟩
  rw [number]
  exact body

-- Bodies are made one for each edit, behind those that were there.
theorem number_unshared (done : Committed image edits next) (few : next.bodies.size ≤ 0x100000000)
    (good : image.WellFormed) {k i : Nat} {number : UInt32} {other : Func} (place : edits[k]? = some (id, rope))
    (behind : number.toNat = image.bodies.size + k) (apart : i ≠ id.toNat) (found : next.functions[i]? = some other) :
    other.body ≠ number := by
  rintro rfl
  obtain ⟨func, known, rfl | ⟨k', id', rope', place', rfl, rfl, -⟩⟩ := done.function_cases found
  · have old := good.bodies _ (Array.mem_of_getElem? known)
    omega
  · have number' := done.toNat_number few place'
    simp only [Func.withCode] at behind
    have same : k' = k := by omega
    rw [same, place] at place'
    cases place'
    exact apart rfl

end Committed

-- A session as the commit finds it: the pending strings are in the table, and the rest is as before.
theorem Ready.committed {session : Session} (ready : session.Ready) :
    Committed session.mergeStrings.image session.edits session.commit :=
  committed_foldl ready.sorted ready.mergeStrings.good.bodies

theorem Ready.size_commit {session : Session} (ready : session.Ready) : session.commit.bodies.size = session.bodyCount := by
  rw [ready.committed.count, (extended_mergeStrings ready.good.toReadable).bodies]
  rfl

theorem isEdited_of_mem {session : Session} (sorted : session.edits.Sorted) {edit : UInt32 × Rope}
    (member : edit ∈ session.edits) : session.isEdited edit.1 = true := by
  have found : session.edits.get? edit.1 = some edit.2 := Edits.get?_of_mem sorted member
  simp [isEdited, found]

theorem Ready.spared {session : Session} (ready : session.Ready) : session.Spared session.commit := by
  have done := ready.committed
  obtain ⟨functions, bodies, -⟩ := extended_mergeStrings ready.good.toReadable
  refine ⟨?_, ?_, ?_⟩
  · rw [done.size, functions]
  · rw [← bodies]
    exact done.bodies_grown
  · intro i clean
    rw [← functions]
    apply done.kept
    intro edit member
    exact clean edit.1 (isEdited_of_mem ready.sorted member)

theorem Ready.realised {session : Session} (ready : session.Ready) (few : session.commit.bodies.size ≤ 0x100000000) :
    session.Realised session.commit := by
  have done := ready.committed
  have merged := ready.mergeStrings
  obtain ⟨functions, bodies, -⟩ := extended_mergeStrings ready.good.toReadable
  refine ⟨?_, ?_⟩
  · intro id
    cases edit : session.edits.get? id with
    | none =>
      have same : session.mergeStrings.image.bodyOf id = session.image.bodyOf id := by
        simp only [Image.bodyOf, Image.function, functions, bodies]
      rw [done.bodyOf_clean ready.sorted merged.good edit, same, code, edit]
      cases session.image.bodyOf id with
      | error e => rfl
      | ok body => simp [liftImage, Except.map, Except.mapError]
    | some rope =>
      have known := Array.getElem?_eq_getElem (merged.known _ (Edits.mem_of_get? edit))
      obtain ⟨k, number, -, -, function, body⟩ := done.body_edited few known edit
      rw [Image.bodyOf_ok_iff.mpr ⟨_, function, body⟩, code, edit]
      rfl
  · intro id edited
    obtain ⟨rope, edit⟩ := Option.isSome_iff_exists.mp edited
    have known := Array.getElem?_eq_getElem (ready.known _ (Edits.mem_of_get? edit))
    have old := Array.getElem?_eq_getElem (ready.good.bodies _ (Array.mem_of_getElem? known))
    obtain ⟨k, number, place, behind, function, body⟩ := done.body_edited few (by rw [functions]; exact known) edit
    rw [bodies, old] at body
    have shown : session.code id = .ok rope := by rw [code, edit]
    refine ⟨_, _, rope, number, known, old, shown, function, body, ?_, ?_⟩
    · rw [behind, bodies]
      exact Nat.le_add_right _ _
    · intro i other apart found
      exact done.number_unshared few merged.good place behind apart found

-- Commits show what sessions show. A body number is a word, so the new bodies have numbers of their own as long as there
-- are no more bodies than words. An operation adds one body at most.
theorem commit_realises_view {image : Image} (good : image.WellFormed) (operations : List Operation) :
    let session := (start image).run operations
    image.Grown session.image ∧ session.Spared session.commit ∧
    -- Functions that shared a body and were not edited share it still.
    (∀ i j a b, session.Clean i → session.Clean j → image.functions[i]? = some a → image.functions[j]? = some b →
      a.body = b.body → ∃ a' b', session.commit.functions[i]? = some a' ∧ session.commit.functions[j]? = some b' ∧
        a'.body = b'.body) ∧
    session.commit.bodies.size ≤ image.bodies.size + operations.length ∧
    (session.commit.bodies.size ≤ 2 ^ 32 → session.Realised session.commit) := by
  intro session
  have ready : session.Ready := ready_run good operations
  have grown : image.Grown session.image := grown_run good operations
  refine ⟨grown, ready.spared, ?_, ?_, ready.realised⟩
  · intro i j a b cleanA cleanB knownA knownB shared
    refine ⟨a, b, ?_, ?_, shared⟩
    · rw [ready.spared.clean i cleanA]
      exact grown.function knownA
    · rw [ready.spared.clean j cleanB]
      exact grown.function knownB
  · rw [ready.size_commit]
    exact bodyCount_run_le good operations

-- Two functions with one body, of which the second is edited, and a third that is created and then edited.
def sampleCreation : List Operation :=
  [.addString "late", .createFunction { name := 0, code := .inr ⟨#[92, 0]⟩, jumpTables := some ⟨#[7]⟩ },
    .replaceBytes 1 0 2 ⟨#[119, 0]⟩, .insertBytes 2 0 ⟨#[118, 0]⟩]

theorem sampleShared_wellFormed : sampleShared.WellFormed := by
  refine ⟨⟨?_, rfl, rfl⟩, ?_, ?_, ?_⟩
  · intro entry member
    cases Array.not_mem_empty entry member
  · simp [sampleShared]
  · intro entry member
    cases Array.not_mem_empty entry member
  · intro entry member
    cases Array.not_mem_empty entry member

theorem sample_realised :
    let session := (start sampleShared).run sampleCreation
    sampleShared.Grown session.image ∧ session.Spared session.commit ∧ session.Realised session.commit ∧
    session.commit.bodyOf 0 = .ok ⟨⟨#[118, 0, 92, 0]⟩, none⟩ ∧
    session.commit.bodyOf 1 = .ok ⟨⟨#[119, 0, 92, 0]⟩, none⟩ ∧
    session.commit.bodyOf 2 = .ok ⟨⟨#[118, 0, 92, 0]⟩, some ⟨#[7]⟩⟩ := by
  intro session
  obtain ⟨grown, spared, -, few, realised⟩ := commit_realises_view sampleShared_wellFormed sampleCreation
  exact ⟨grown, spared, realised (few.trans (by decide)), by rfl, by rfl, by rfl⟩

end Session
end CodeImage
