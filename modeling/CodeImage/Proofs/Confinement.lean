import CodeImage.Proofs.FixedPoint
import CodeImage.Proofs.Patched

namespace CodeImage

-- What a function keeps when its code is replaced and the file is written: all but the places of its parts.
structure Func.Framed (func func' : Func) : Prop where
  paramCount : func'.header.paramCount = func.header.paramCount
  functionName : func'.header.functionName = func.header.functionName
  frameSize : func'.header.frameSize = func.header.frameSize
  environmentSize : func'.header.environmentSize = func.header.environmentSize
  readCacheIndex : func'.header.readCacheIndex = func.header.readCacheIndex
  writeCacheIndex : func'.header.writeCacheIndex = func.header.writeCacheIndex
  prohibitInvoke : func'.header.prohibitInvoke = func.header.prohibitInvoke
  strictMode : func'.header.strictMode = func.header.strictMode
  handlers : func'.handlers = func.handlers
  debug : func'.debug = func.debug

-- An image in which only the code of reported functions differs, where it is that of a reported replacement.
structure Image.Confined (image : Image) (reported : UInt32 → List Instruction → Prop) (back : Image) : Prop where
  version : back.version = image.version
  sourceHash : back.sourceHash = image.sourceHash
  globalCodeIndex : back.globalCodeIndex = image.globalCodeIndex
  segmentId : back.segmentId = image.segmentId
  options : back.options = image.options
  strings : back.strings = image.strings
  identifierHashes : back.identifierHashes = image.identifierHashes
  bigInts : back.bigInts = image.bigInts
  regExps : back.regExps = image.regExps
  arrayBuffer : back.arrayBuffer = image.arrayBuffer
  objectKeyBuffer : back.objectKeyBuffer = image.objectKeyBuffer
  objectValueBuffer : back.objectValueBuffer = image.objectValueBuffer
  cjsModules : back.cjsModules = image.cjsModules
  functionSources : back.functionSources = image.functionSources
  debugInfo : back.debugInfo = image.debugInfo
  size : back.functions.size = image.functions.size
  framed : ∀ (i : Nat) (func func' : Func), image.functions[i]? = some func → back.functions[i]? = some func' →
    func.Framed func'
  untouched : ∀ id, (∀ insns, ¬ reported id insns) →
    (back.bodyOf id).map Body.code = (image.bodyOf id).map Body.code
  shared : ∀ (i j : UInt32) (a b a' b' : Func), (∀ insns, ¬ reported i insns) → (∀ insns, ¬ reported j insns) →
    image.function i = .ok a → image.function j = .ok b → back.function i = .ok a' → back.function j = .ok b' →
    a.body = b.body → a'.body = b'.body
  replaced : ∀ id insns, reported id insns → ∃ last body, reported id last ∧ back.bodyOf id = .ok body ∧
    Instruction.encodeAll last = .ok body.code

namespace Image

theorem bodyOf_of_le {image : Image} {id : UInt32} (outside : image.functions.size ≤ id.toNat) :
    image.bodyOf id = .error (.functionIndex id) := by
  simp only [bodyOf, function, Array.getElem?_eq_none outside]

end Image

namespace Session.Committed

variable {image next back : Image} {edits : Edits}

-- A part of the image that is neither functions nor bodies.
theorem same (done : Committed image edits next) {α : Type} (part : Image → α)
    (other : ∀ functions bodies, part { image with functions, bodies } = part image) : part next = part image := by
  rw [done.others, other]

theorem kept_of_get? (done : Committed image edits next) (sorted : edits.Sorted) {id : UInt32}
    (none : edits.get? id = none) : next.functions[id.toNat]? = image.functions[id.toNat]? := by
  apply done.kept
  rintro ⟨other, rope⟩ member same
  cases UInt32.toNat_inj.mp same
  rw [Edits.get?_of_mem sorted member] at none
  cases none

theorem size_back (done : Committed image edits next) (restored : next.Restored back) :
    back.functions.size = image.functions.size := by
  rw [← done.size]
  simpa using restored.functions.length_eq.symm

-- A function after the commit and what the file keeps of it.
theorem restored_function (done : Committed image edits next) (restored : next.Restored back) {i : Nat} {func : Func}
    (known : image.functions[i]? = some func) :
    ∃ middle func', next.functions[i]? = some middle ∧ back.functions[i]? = some func' ∧
      Func.Restored next back middle func' := by
  have inside := (Array.getElem?_eq_some_iff.mp known).1
  have middle := Array.getElem?_eq_getElem (done.size ▸ inside)
  have last := Array.getElem?_eq_getElem (done.size_back restored ▸ inside)
  refine ⟨_, _, middle, last, ?_⟩
  rw [← Array.getElem?_toList] at middle last
  exact getElem?_of_forall₂ restored.functions middle last

theorem framed (done : Committed image edits next) (restored : next.Restored back) {i : Nat} {func func' : Func}
    (known : image.functions[i]? = some func) (last : back.functions[i]? = some func') : func.Framed func' := by
  obtain ⟨middle, func'', between, last', kept⟩ := done.restored_function restored known
  cases last.symm.trans last'
  obtain ⟨func₀, known', change⟩ := done.function_cases between
  cases known.symm.trans known'
  -- New code changes the number of the body and the size of the code, and the frame has neither.
  have frame : func.Framed middle := by
    rcases change with rfl | ⟨k, id, rope, -, -, rfl, -⟩
    · exact ⟨rfl, rfl, rfl, rfl, rfl, rfl, rfl, rfl, rfl, rfl⟩
    · exact ⟨rfl, rfl, rfl, rfl, rfl, rfl, rfl, rfl, rfl, rfl⟩
  exact ⟨kept.paramCount.trans frame.paramCount, kept.functionName.trans frame.functionName,
    kept.frameSize.trans frame.frameSize, kept.environmentSize.trans frame.environmentSize,
    kept.readCacheIndex.trans frame.readCacheIndex, kept.writeCacheIndex.trans frame.writeCacheIndex,
    kept.prohibitInvoke.trans frame.prohibitInvoke, kept.strictMode.trans frame.strictMode,
    kept.handlers.trans frame.handlers, kept.debug.trans frame.debug⟩

theorem untouched (done : Committed image edits next) (sorted : edits.Sorted) (good : image.WellFormed)
    (restored : next.Restored back) {id : UInt32} (none : edits.get? id = none) :
    (back.bodyOf id).map Body.code = (image.bodyOf id).map Body.code := by
  cases known : image.functions[id.toNat]? with
  | none =>
    have outside := Array.getElem?_eq_none_iff.mp known
    have size := done.size_back restored
    rw [Image.bodyOf_of_le outside, Image.bodyOf_of_le (by omega)]
  | some func =>
    obtain ⟨middle, func', between, last, kept⟩ := done.restored_function restored known
    rw [done.kept_of_get? sorted none, known] at between
    cases between
    obtain ⟨body, body', held, held', code, -⟩ := kept.body
    rw [done.bodies _ (good.bodies _ (Array.mem_of_getElem? known))] at held
    rw [Image.bodyOf_ok_iff.mpr ⟨func, known, held⟩, Image.bodyOf_ok_iff.mpr ⟨func', last, held'⟩]
    exact congrArg Except.ok code

theorem replaced (done : Committed image edits next) (few : next.bodies.size ≤ 0x100000000)
    (restored : next.Restored back) {id : UInt32} {rope : Rope} (inside : id.toNat < image.functions.size)
    (edited : edits.get? id = some rope) : ∃ body, back.bodyOf id = .ok body ∧ body.code = rope.toBytes := by
  obtain ⟨k, place⟩ := List.mem_iff_getElem?.mp (Edits.mem_of_get? edited)
  have known := Array.getElem?_eq_getElem inside
  obtain ⟨function, fresh⟩ := done.edited k id rope _ place known
  obtain ⟨middle, func', between, last, kept⟩ := done.restored_function restored known
  cases function.symm.trans between
  obtain ⟨body, body', held, held', code, -⟩ := kept.body
  rw [Func.withCode, done.toNat_number few place, fresh] at held
  cases held
  exact ⟨body', Image.bodyOf_ok_iff.mpr ⟨func', last, held'⟩, code⟩

-- A commit of edits that are reported, written and read.
theorem confined (done : Committed image edits next) (few : next.bodies.size ≤ 0x100000000) (sorted : edits.Sorted)
    (good : image.WellFormed) (restored : next.Restored back) {reported : UInt32 → List Instruction → Prop}
    (kept : ∀ id, (∀ insns, ¬ reported id insns) → edits.get? id = none)
    (replaced : ∀ id insns, reported id insns → id.toNat < image.functions.size ∧ ∃ last rope, reported id last ∧
      edits.get? id = some rope ∧ Instruction.encodeAll last = .ok (Rope.toBytes rope)) :
    image.Confined reported back where
  version := restored.version.trans (done.same Image.version fun _ _ => rfl)
  sourceHash := restored.sourceHash.trans (done.same Image.sourceHash fun _ _ => rfl)
  globalCodeIndex := restored.globalCodeIndex.trans (done.same Image.globalCodeIndex fun _ _ => rfl)
  segmentId := restored.segmentId.trans (done.same Image.segmentId fun _ _ => rfl)
  options := restored.options.trans (done.same Image.options fun _ _ => rfl)
  strings := restored.strings.trans (done.same Image.strings fun _ _ => rfl)
  identifierHashes := restored.identifierHashes.trans (done.same Image.identifierHashes fun _ _ => rfl)
  bigInts := restored.bigInts.trans (done.same Image.bigInts fun _ _ => rfl)
  regExps := restored.regExps.trans (done.same Image.regExps fun _ _ => rfl)
  arrayBuffer := restored.arrayBuffer.trans (done.same Image.arrayBuffer fun _ _ => rfl)
  objectKeyBuffer := restored.objectKeyBuffer.trans (done.same Image.objectKeyBuffer fun _ _ => rfl)
  objectValueBuffer := restored.objectValueBuffer.trans (done.same Image.objectValueBuffer fun _ _ => rfl)
  cjsModules := restored.cjsModules.trans (done.same Image.cjsModules fun _ _ => rfl)
  functionSources := restored.functionSources.trans (done.same Image.functionSources fun _ _ => rfl)
  debugInfo := restored.debugInfo.trans (done.same Image.debugInfo fun _ _ => rfl)
  size := done.size_back restored
  framed _ _ _ known last := done.framed restored known last
  untouched id free := done.untouched sorted good restored (kept id free)
  shared := by
    intro i j a b a' b' free free' left right left' right' same
    rw [Image.function_ok_iff] at left right left' right'
    rw [← done.kept_of_get? sorted (kept i free)] at left
    rw [← done.kept_of_get? sorted (kept j free')] at right
    exact restored.shared i.toNat j.toNat a b a' b' left right left' right' same
  replaced := by
    intro id insns listed
    obtain ⟨inside, last, rope, named, edited, encoded⟩ := replaced id insns listed
    obtain ⟨body, held, code⟩ := done.replaced few restored inside edited
    exact ⟨last, body, named, held, code ▸ encoded⟩

end Session.Committed

namespace Session

-- Every edit has a function of its own.
theorem Orderly.length_le {session : Session} (orderly : session.Orderly) :
    session.edits.length ≤ session.image.functions.size := by
  have distinct : (session.edits.map fun edit => edit.1.toNat).Nodup := by
    apply List.pairwise_map.mpr
    refine orderly.sorted.imp ?_
    intro a b smaller
    exact Nat.ne_of_lt (UInt32.lt_iff_toNat_lt.mp smaller)
  have bounded : (session.edits.map fun edit => edit.1.toNat) ⊆ List.range session.image.functions.size := by
    intro n member
    obtain ⟨edit, listed, rfl⟩ := List.mem_map.mp member
    exact List.mem_range.mpr (orderly.inside edit listed)
  simpa using (List.subperm_of_subset distinct bounded).length_le

theorem orderly_start (image : Image) : (start image).Orderly :=
  ⟨List.Pairwise.nil, fun _ member => (List.not_mem_nil member).elim, fun _ member => (List.not_mem_nil member).elim⟩

-- Patching a file changes what its outcomes report, and the file that is written can be verified.
theorem patches_confined {data : ByteArray} {options : ReadOptions} {image : Image} {patches : List Patch}
    {file : ByteArray} (parsed : Image.parse data options = .ok image) (few : image.strings.overflowCount ≤ 2 ^ 23)
    (loadable : ∀ patch ∈ patches, patch.Loadable)
    (written : (runPatches (start image) patches).session.commit.write = .ok file) :
    ∃ back, Image.parse file = .ok back ∧ Image.verify file = .ok back ∧
      image.Confined (Reported patches (runPatches (start image) patches).outcomes) back := by
  obtain ⟨header, table, tables, reading⟩ := Image.parse_exact.mp parsed
  obtain ⟨good, caches, plain⟩ := reading.wellFormed
  obtain ⟨fewBodies, fewFunctions⟩ := reading.numbered
  obtain ⟨log, path, exact⟩ := faithful_of_declarative (fun patch member => (loadable patch member).declarative)
    (start image) ((List.range (start image).functionCount).map Nat.toUInt32)
  rw [← runPatches] at path exact
  obtain ⟨others, orderly, inside, kept, replaced⟩ := path.replaced (orderly_start image)
  generalize (runPatches (start image) patches).session = session at *
  generalize (runPatches (start image) patches).outcomes = outcomes at *
  have image_eq : session.image = image := by rw [others]; rfl
  have commit_eq : session.commit = session.edits.foldl commitEdit image := by
    rw [commit, others]
    rfl
  have done : Committed image session.edits session.commit := by
    rw [commit_eq]
    exact committed_foldl orderly.sorted good.bodies
  have number : session.commit.bodies.size ≤ 0x100000000 := by
    have edits := orderly.length_le
    rw [image_eq] at edits
    have count := done.count
    omega
  have good' := done.wellFormed good
  have caches' := done.smallCaches caches
  have plain' := done.plainTables number good plain
  have few' : session.commit.strings.overflowCount ≤ 2 ^ 23 := by rw [done.others]; exact few
  obtain ⟨back, reads, -, verified⟩ := Image.fixed_point_of_written good' plain' caches' few' written
  obtain ⟨plan, serves, rfl⟩ := Image.write_exact.mp written
  cases reads.symm.trans (serves.parse_signed good' few' {})
  refine ⟨_, reads, verified, done.confined number orderly.sorted good (serves.restored caches') ?_ ?_⟩
  · intro id free
    exact kept id fun insns listed => free insns ((exact id insns).mp listed)
  · intro id insns reported
    have listed := (exact id insns).mpr reported
    obtain ⟨last, rope, named, edited, encoded⟩ := replaced id insns listed
    exact ⟨inside id insns listed, last, rope, (exact id last).mp named, edited, encoded⟩

-- A patch without a selector, and a file with two functions that share their code. The patch finds both and changes the
-- first.
def sampleText : String := "\x7b\"replace\":[[\"Ret\",0]]\x7d"

def samplePatch : Patch := .replace {} [⟨⟨92, by decide⟩, [.int 0]⟩]

def sampleShared : Image :=
  { functions := #[⟨{}, 0, none, none⟩, ⟨{ paramCount := 2 }, 0, some [⟨0, 2, 2⟩], none⟩]
    bodies := #[⟨⟨#[118, 0, 92, 0]⟩, none⟩] }

theorem samplePatch_loadable : samplePatch.Loadable := by
  have read : Patch.parseJson sampleText = .ok [samplePatch] := by
    unfold samplePatch
    cbv
  exact ⟨sampleText, [samplePatch], read, List.mem_singleton.mpr rfl⟩

theorem sampleShared_patched :
    (match sampleShared.write with
      | .ok data =>
        match Image.parse data with
        | .ok image => decide (image.strings.overflowCount ≤ 2 ^ 23) &&
          (runPatches (start image) [samplePatch]).session.commit.write.toBool &&
          (runPatches (start image) [samplePatch]).outcomes.map Outcome.function? == [some 0]
        | .error _ => false
      | .error _ => false) = true := by
  simp only [runPatches, runPatchesOn_eq]
  decide +kernel

theorem sample_confined :
    ∃ data image file back, Image.parse data = .ok image ∧
      (runPatches (start image) [samplePatch]).session.commit.write = .ok file ∧
      (runPatches (start image) [samplePatch]).outcomes.map Outcome.function? = [some 0] ∧
      Image.parse file = .ok back ∧ Image.verify file = .ok back ∧
      image.Confined (Reported [samplePatch] (runPatches (start image) [samplePatch]).outcomes) back := by
  have computed := sampleShared_patched
  split at computed
  · next data _ =>
    split at computed
    · next image parsed =>
      rw [Bool.and_eq_true, Bool.and_eq_true] at computed
      obtain ⟨⟨few, done⟩, named⟩ := computed
      cases written : (runPatches (start image) [samplePatch]).session.commit.write with
      | error e => rw [written] at done; cases done
      | ok file =>
        obtain ⟨back, reads, verified, confined⟩ := patches_confined parsed (of_decide_eq_true few)
          (fun patch member => List.mem_singleton.mp member ▸ samplePatch_loadable) written
        exact ⟨data, image, file, back, parsed, written, beq_iff_eq.mp named, reads, verified, confined⟩
    · cases computed
  · cases computed

end Session
end CodeImage
