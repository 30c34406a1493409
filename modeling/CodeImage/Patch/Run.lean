import CodeImage.Patch
import CodeImage.Error

namespace CodeImage

structure ResolvedSelector where
  identifier : Option UInt32
  strings : List UInt32
deriving DecidableEq, Inhabited, Repr

namespace Selector

def resolve (session : Session) (selector : Selector) : Except PatchError ResolvedSelector := do
  let identifier ← selector.identifier.mapM fun name =>
    match session.findString? name with
    | some id => .ok id
    | none => .error (.identifierNotFound name)
  let strings ← selector.strings.mapM fun text =>
    match session.findPartialString? text with
    | some id => .ok id
    | none => .error (.stringNotFound text)
  return ⟨identifier, strings⟩

def selects (selector : Selector) (resolved : ResolvedSelector) (found : Fingerprint) : Bool :=
  resolved.identifier.all (· == found.name) && selector.opcodes.all found.opcodes.contains &&
    resolved.strings.all found.strings.contains

end Selector

-- The functions that one patch of a list selects: the first of them and their number.
structure Hit where
  index : Nat
  function : UInt32
  closures : List UInt32
  count : Nat
deriving DecidableEq, Inhabited, Repr

structure Survey where
  hits : List Hit := []
  warnings : List Warning := []
deriving DecidableEq, Inhabited, Repr

namespace Survey

def note (survey : Survey) (index : Nat) (function : UInt32) (closures : List UInt32) : Survey :=
  if survey.hits.any (·.index == index) then
    { hits := survey.hits.map fun hit => if hit.index = index then { hit with count := hit.count + 1 } else hit
      warnings := survey.warnings ++ [.ambiguousPatch] }
  else { survey with hits := survey.hits ++ [⟨index, function, closures, 1⟩] }

def selecting (patches : List (Selector × Except PatchError ResolvedSelector)) (found : Fingerprint) : List Nat :=
  patches.zipIdx.filterMap fun ((selector, resolved), index) =>
    match resolved with
    | .ok resolved => if selector.selects resolved found then some index else none
    | .error _ => none

def visit (session : Session) (patches : List (Selector × Except PatchError ResolvedSelector))
    (survey : Survey) (function : UInt32) : Survey :=
  match Fingerprint.ofFunction session function with
  | .error _ => { survey with warnings := survey.warnings ++ [.undecodableFunction] }
  | .ok found =>
    (selecting patches found).foldl (fun survey index => survey.note index function found.closures) survey

def run (session : Session) (patches : List (Selector × Except PatchError ResolvedSelector))
    (candidates : List UInt32) : Survey :=
  candidates.foldl (visit session patches) {}

def hit? (survey : Survey) (index : Nat) : Option Hit := survey.hits.find? (·.index == index)

def missed (survey : Survey) (patches : List (Selector × Except PatchError ResolvedSelector)) : List Warning :=
  patches.zipIdx.filterMap fun ((_, resolved), index) =>
    match resolved with
    | .error _ => some .unresolvedFingerprint
    | .ok _ => if (survey.hit? index).isSome then none else some .unmatchedPatch

end Survey

structure PatchRun where
  session : Session
  outcomes : List (Nat × Outcome) := []
  warnings : List Warning := []
deriving Inhabited

namespace PatchRun

def warningOf (reason : PatchError) : Warning :=
  if reason = .addressOverflow then .abandonedPatch else .failedPatch

def record (run : PatchRun) (hit : Hit) (session : Session) (result : Except PatchError (List Outcome))
    (warnings : List Warning) : PatchRun :=
  match result with
  | .error reason =>
    ⟨session, run.outcomes ++ [(hit.index, .failed reason)], run.warnings ++ warnings ++ [warningOf reason]⟩
  | .ok nested =>
    let outcome := if 1 < hit.count then Outcome.notUnique hit.function hit.count nested
      else .applied hit.function nested
    ⟨session, run.outcomes ++ [(hit.index, outcome)], run.warnings ++ warnings⟩

def outcomesFor (run : PatchRun) (resolved : List (Except PatchError ResolvedSelector)) : List Outcome :=
  resolved.zipIdx.map fun (resolved, index) =>
    match resolved with
    | .error reason => .failed reason
    | .ok _ => ((run.outcomes.find? (·.1 == index)).map (·.2)).getD .notFound

end PatchRun

structure Patched where
  session : Session
  outcomes : List Outcome
  warnings : List Warning
deriving Inhabited

-- All selectors are looked up and all functions surveyed before the first change, so a patch never hides a function
-- from the next one.
def runPatchesOn (session : Session) (patches : List Patch) (candidates : List UInt32) : Patched :=
  let resolved := patches.map fun patch => patch.selector.resolve session
  let selectors := (patches.map (·.selector)).zip resolved
  let survey := Survey.run session selectors candidates
  let start : PatchRun := ⟨session, [], survey.warnings ++ survey.missed selectors⟩
  let run := survey.hits.foldl (fun run hit =>
    match selected : patches[hit.index]? with
    | none => run
    | some (.replace _ insns) =>
      let (session, result) := run.session.replaceAll hit.function insns
      run.record hit session (result.map fun _ => []) []
    | some (.nested _ inner) =>
      have : sizeOf inner < sizeOf patches := by
        have := List.sizeOf_lt_of_mem (List.mem_of_getElem? selected)
        simp only [Patch.nested.sizeOf_spec] at this
        omega
      let done := runPatchesOn run.session inner hit.closures
      run.record hit done.session (.ok done.outcomes) done.warnings
    | some (.apply _ change) =>
      let (session, result) := change run.session hit.function
      run.record hit session (result.map fun _ => []) []) start
  ⟨run.session, run.outcomesFor resolved, run.warnings⟩
termination_by sizeOf patches

def runPatches (session : Session) (patches : List Patch) : Patched :=
  runPatchesOn session patches ((List.range session.functionCount).map Nat.toUInt32)

end CodeImage
