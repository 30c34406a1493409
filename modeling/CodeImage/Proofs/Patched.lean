import CodeImage.Patch.Json
import CodeImage.Patch.Run
import CodeImage.Proofs.Commit
import CodeImage.Proofs.Flattening
import CodeImage.Proofs.Session

namespace CodeImage

-- A patch that consists of data only, without changes that depend on the function.
inductive Patch.Declarative : Patch → Prop where
  | replace (selector : Selector) (insns : List Instruction) : Declarative (.replace selector insns)
  | nested (selector : Selector) {patches : List Patch} (inner : ∀ patch ∈ patches, Declarative patch) :
      Declarative (.nested selector patches)

theorem exists_of_mapM_eq_some {α β : Type} {f : α → Option β} {items : List α} {results : List β}
    (done : items.mapM f = some results) {result : β} (member : result ∈ results) :
    ∃ item ∈ items, f item = some result := by
  induction items generalizing results with
  | nil =>
    cases done
    cases member
  | cons first rest ih =>
    rw [List.mapM_cons] at done
    obtain ⟨head, here, more⟩ := Option.bind_eq_some_iff.mp done
    obtain ⟨tail, later, last⟩ := Option.bind_eq_some_iff.mp more
    cases last
    rcases List.mem_cons.mp member with rfl | inside
    · exact ⟨first, List.mem_cons_self, here⟩
    · obtain ⟨item, listed, made⟩ := ih later inside
      exact ⟨item, List.mem_cons_of_mem _ listed, made⟩

namespace Patch

mutual

theorem declarative_of_ofJson? (value : JsonValue) {patch : Patch} (read : ofJson? value = some patch) :
    patch.Declarative := by
  unfold ofJson? at read
  split at read
  · next members =>
    obtain ⟨selector, -, more⟩ := Option.bind_eq_some_iff.mp read
    split at more
    · cases more
    · next name action found =>
      have smaller : sizeOf action < sizeOf (JsonValue.object members) := by
        have inside := List.sizeOf_lt_of_mem (List.mem_of_find?_eq_some found)
        simp only [Prod.mk.sizeOf_spec] at inside
        simp only [JsonValue.object.sizeOf_spec]
        omega
      split at more
      · obtain ⟨insns, -, done⟩ := Option.bind_eq_some_iff.mp more
        cases done
        exact .replace selector insns
      · obtain ⟨patches, listed, done⟩ := Option.bind_eq_some_iff.mp more
        cases done
        exact .nested selector (declarative_of_listOfJson? action listed)
  · cases read
termination_by (sizeOf value, 0)
decreasing_by
  subst_vars
  exact Prod.Lex.left _ _ (by assumption)

theorem declarative_of_listOfJson? (value : JsonValue) {patches : List Patch} (read : listOfJson? value = some patches) :
    ∀ patch ∈ patches, patch.Declarative := by
  unfold listOfJson? at read
  split at read
  · next items =>
    intro patch member
    obtain ⟨⟨item, listed⟩, -, made⟩ := exists_of_mapM_eq_some read member
    have smaller : sizeOf item < sizeOf (JsonValue.list items) := by
      have inside := List.sizeOf_lt_of_mem listed
      simp only [JsonValue.list.sizeOf_spec]
      omega
    exact declarative_of_ofJson? item made
  · obtain ⟨patch, found, rfl⟩ := Option.map_eq_some_iff.mp read
    intro patch member
    cases List.mem_singleton.mp member
    exact declarative_of_ofJson? value found
termination_by (sizeOf value, 1)
decreasing_by
  · subst_vars
    exact Prod.Lex.left _ _ (by assumption)
  · exact Prod.Lex.right _ (by omega)

end

-- A patch that can be read from a text.
def Loadable (patch : Patch) : Prop := ∃ text patches, parseJson text = .ok patches ∧ patch ∈ patches

theorem Loadable.declarative {patch : Patch} (loadable : patch.Loadable) : patch.Declarative := by
  obtain ⟨text, patches, read, member⟩ := loadable
  obtain ⟨⟨value, rest⟩, -, more⟩ := bind_ok_iff.mp read
  simp only at more
  split at more
  · cases more
  · next found listed =>
    obtain ⟨_, -, done⟩ := bind_ok_iff.mp more
    cases done
    exact declarative_of_listOfJson? value listed patch member

end Patch

-- The function that an outcome names.
def Outcome.function? : Outcome → Option UInt32
  | .applied function _ | .notUnique function _ _ => some function
  | .notFound | .failed _ => none

-- A replacement of a function's code that the outcome of a patch reports, at any depth.
inductive Patch.Reports : Patch → Outcome → UInt32 → List Instruction → Prop where
  | replaced {selector : Selector} {insns : List Instruction} {outcome : Outcome} {function : UInt32}
      (named : outcome.function? = some function) : Reports (.replace selector insns) outcome function insns
  | within {selector : Selector} {patches : List Patch} {outcome found : Outcome} {patch : Patch} {function : UInt32}
      {insns : List Instruction} (listed : (patch, found) ∈ patches.zip outcome.nested)
      (inner : Reports patch found function insns) : Reports (.nested selector patches) outcome function insns

-- The same for a list of patches and their outcomes.
def Reported (patches : List Patch) (outcomes : List Outcome) (function : UInt32) (insns : List Instruction) : Prop :=
  ∃ patch outcome, (patch, outcome) ∈ patches.zip outcomes ∧ patch.Reports outcome function insns

theorem Image.function_ok_iff {image : Image} {id : UInt32} {func : Func} :
    image.function id = .ok func ↔ image.functions[id.toNat]? = some func := by
  unfold Image.function
  cases image.functions[id.toNat]? with
  | none => simp
  | some found => simp

theorem Image.lt_of_function {image : Image} {id : UInt32} {func : Func} (found : image.function id = .ok func) :
    id.toNat < image.functions.size := (Array.getElem?_eq_some_iff.mp (function_ok_iff.mp found)).1

namespace Session

theorem replaceAll_exact {session next : Session} {id : UInt32} {insns : List Instruction} :
    session.replaceAll id insns = (next, .ok ()) ↔
      ∃ old data, session.code id = .ok old ∧ (∃ func, session.image.function id = .ok func) ∧
        Instruction.encodeAll insns = .ok data ∧
        next = { session with edits := session.edits.put id (old.replace 0 old.size (.leaf data)) } := by
  rw [replaceAll, given_done]
  constructor
  · rintro ⟨old, known, replaced⟩
    obtain ⟨func, data, encoded, edited⟩ := replaceInstructions_exact.mp replaced
    obtain ⟨old', known', -, -, rfl⟩ := edit_exact.mp edited
    cases known.symm.trans known'
    exact ⟨old, data, known, func, encoded, rfl⟩
  · rintro ⟨old, data, known, func, encoded, rfl⟩
    refine ⟨old, known, replaceInstructions_exact.mpr ⟨func, data, encoded, edit_exact.mpr ?_⟩⟩
    exact ⟨old, known, Nat.zero_le _, Nat.le_refl _, rfl⟩

theorem outcome_replaceAll (session : Session) (id : UInt32) (insns : List Instruction) :
    EditOutcome session id (session.replaceAll id insns) :=
  outcome_given fun _ _ => outcome_replaceInstructions ..

-- Sessions whose code is replaced, with a log of what replaced it.
inductive Replaces (session : Session) : List (UInt32 × List Instruction) → Session → Prop where
  | nil : Replaces session [] session
  | snoc {log : List (UInt32 × List Instruction)} {middle next : Session} {id : UInt32} {insns : List Instruction}
      (before : Replaces session log middle) (step : middle.replaceAll id insns = (next, .ok ())) :
      Replaces session (log ++ [(id, insns)]) next

theorem Replaces.append {session middle next : Session} {log more : List (UInt32 × List Instruction)}
    (first : Replaces session log middle) (second : Replaces middle more next) : Replaces session (log ++ more) next := by
  induction second with
  | nil => rwa [List.append_nil]
  | snoc _ step ih =>
    rw [← List.append_assoc]
    exact ih.snoc step

-- Edits are in order, concern functions that exist, and their ropes know their length.
structure Orderly (session : Session) : Prop where
  sorted : session.edits.Sorted
  inside : ∀ edit ∈ session.edits, edit.1.toNat < session.image.functions.size
  tidy : ∀ edit ∈ session.edits, Rope.Tidy edit.2

theorem Orderly.tidy_code {session : Session} (orderly : session.Orderly) {id : UInt32} {rope : Rope}
    (known : session.code id = .ok rope) : rope.Tidy := by
  unfold code at known
  split at known
  · next found =>
    cases known
    exact orderly.tidy _ (Edits.mem_of_get? found)
  · cases held : session.image.bodyOf id with
    | error e => rw [held] at known; cases known
    | ok body =>
      rw [held] at known
      cases known
      exact Rope.tidy_leaf _

theorem Orderly.sound_code {session : Session} (orderly : session.Orderly) {id : UInt32} {rope : Rope}
    (known : session.code id = .ok rope) : rope.Sound := (orderly.tidy_code known).sound

-- Code is known of functions that are there, or were there when they were edited.
theorem lt_of_code {session : Session} (inside : ∀ edit ∈ session.edits, edit.1.toNat < session.image.functions.size)
    {id : UInt32} {rope : Rope} (known : session.code id = .ok rope) : id.toNat < session.image.functions.size := by
  unfold code at known
  cases found : session.edits.get? id with
  | some old => exact inside _ (Edits.mem_of_get? found)
  | none =>
    rw [found] at known
    cases here : session.image.functions[id.toNat]? with
    | some func => exact (Array.getElem?_eq_some_iff.mp here).1
    | none =>
      simp only [Image.bodyOf, Image.function, here] at known
      cases known

-- What replacements do to a session.
structure Replaced (session : Session) (log : List (UInt32 × List Instruction)) (next : Session) : Prop where
  others : next = { session with edits := next.edits }
  orderly : next.Orderly
  inside : ∀ id insns, (id, insns) ∈ log → id.toNat < session.image.functions.size
  kept : ∀ id, (∀ insns, (id, insns) ∉ log) → next.edits.get? id = session.edits.get? id
  replaced : ∀ id insns, (id, insns) ∈ log → ∃ last rope, (id, last) ∈ log ∧ next.edits.get? id = some rope ∧
    Instruction.encodeAll last = .ok (Rope.toBytes rope)

theorem Replaces.replaced {session next : Session} {log : List (UInt32 × List Instruction)}
    (path : Replaces session log next) (orderly : session.Orderly) : Replaced session log next := by
  induction path with
  | nil =>
    refine ⟨rfl, orderly, ?_, fun _ _ => rfl, ?_⟩
    · intro id insns member
      cases member
    · intro id insns member
      cases member
  | @snoc log middle next id insns _ step ih =>
    obtain ⟨others, middleOrderly, inside, kept, replaced⟩ := ih
    obtain ⟨old, data, known, ⟨func, exists'⟩, encoded, rfl⟩ := replaceAll_exact.mp step
    have image : middle.image = session.image := by rw [others]
    have oldTidy := middleOrderly.tidy_code known
    have tidy := Rope.tidy_replace oldTidy (Rope.tidy_leaf data) 0 old.size
    have bytes : (old.replace 0 old.size (.leaf data)).toBytes = data := by
      rw [Rope.toBytes_replace oldTidy.sound (Rope.sound_leaf data)]
      simp
    have here : id.toNat < middle.image.functions.size := Image.lt_of_function exists'
    refine ⟨?_, ⟨?_, ?_, ?_⟩, ?_, ?_, ?_⟩
    · rw [others]
    · exact Edits.sorted_put middleOrderly.sorted _ _
    · intro edit member
      rcases Edits.mem_put member with rfl | old
      · exact here
      · exact middleOrderly.inside edit old
    · intro edit member
      rcases Edits.mem_put member with rfl | old
      · exact tidy
      · exact middleOrderly.tidy edit old
    · intro other insns' member
      rcases List.mem_append.mp member with old | new
      · exact inside other insns' old
      · cases List.mem_singleton.mp new
        rwa [← image]
    · intro other missing
      have apart : id ≠ other := by
        rintro rfl
        exact missing insns (by simp)
      rw [Edits.get?_put, if_neg apart]
      exact kept other fun insns' old => missing insns' (List.mem_append_left _ old)
    · intro other insns' member
      by_cases same : id = other
      · subst same
        refine ⟨insns, _, by simp, by rw [Edits.get?_put, if_pos rfl], ?_⟩
        rw [bytes, encoded]
      · rcases List.mem_append.mp member with old | new
        · obtain ⟨last, rope, listed, found, code⟩ := replaced other insns' old
          exact ⟨last, rope, List.mem_append_left _ listed, by rw [Edits.get?_put, if_neg same, found], code⟩
        · cases List.mem_singleton.mp new
          exact absurd rfl same

end Session

namespace Survey

variable {selectors : List (Selector × Except PatchError ResolvedSelector)}

-- A patch is hit once at most, and only if its texts were found.
structure Proper (selectors : List (Selector × Except PatchError ResolvedSelector)) (survey : Survey) : Prop where
  distinct : (survey.hits.map Hit.index).Nodup
  resolved : ∀ hit ∈ survey.hits, ∃ selector resolved, selectors[hit.index]? = some (selector, .ok resolved)

theorem resolved_of_selecting {found : Fingerprint} {index : Nat} (member : index ∈ selecting selectors found) :
    ∃ selector resolved, selectors[index]? = some (selector, .ok resolved) := by
  obtain ⟨⟨⟨selector, resolved⟩, place⟩, listed, picked⟩ := List.mem_filterMap.mp member
  have here := List.mem_zipIdx_iff_getElem?.mp listed
  cases resolved with
  | error e => cases picked
  | ok resolved =>
    simp only at picked
    split at picked
    · cases picked
      exact ⟨selector, resolved, here⟩
    · cases picked

theorem Proper.note {survey : Survey} (proper : Proper selectors survey) {index : Nat} {selector : Selector}
    {resolved : ResolvedSelector} (known : selectors[index]? = some (selector, .ok resolved)) (function : UInt32)
    (closures : List UInt32) : Proper selectors (survey.note index function closures) := by
  unfold Survey.note
  split
  -- A later hit only counts, so places and their order stay.
  · have places : (survey.hits.map fun hit => if hit.index = index then { hit with count := hit.count + 1 } else hit).map
        Hit.index = survey.hits.map Hit.index := by
      rw [List.map_map]
      apply List.map_congr_left
      intro hit _
      simp only [Function.comp_apply]
      split <;> rfl
    refine ⟨places ▸ proper.distinct, ?_⟩
    intro hit member
    have place : hit.index ∈ survey.hits.map Hit.index := places ▸ List.mem_map_of_mem member
    obtain ⟨old, listed, same⟩ := List.mem_map.mp place
    rw [← same]
    exact proper.resolved old listed
  · next unseen =>
    have fresh : index ∉ survey.hits.map Hit.index := by
      intro seen
      obtain ⟨hit, listed, same⟩ := List.mem_map.mp seen
      exact unseen (List.any_eq_true.mpr ⟨hit, listed, by simp [same]⟩)
    constructor
    · simp only [List.map_append, List.map_cons, List.map_nil]
      exact List.nodup_append.mpr ⟨proper.distinct, List.nodup_singleton _, by
        rintro place seen _ last rfl
        rw [List.mem_singleton.mp last] at seen
        exact fresh seen⟩
    · intro hit member
      rcases List.mem_append.mp member with old | new
      · exact proper.resolved hit old
      · cases List.mem_singleton.mp new
        exact ⟨selector, resolved, known⟩

theorem Proper.visit {survey : Survey} (proper : Proper selectors survey) (session : Session) (function : UInt32) :
    Proper selectors (survey.visit session selectors function) := by
  unfold Survey.visit
  split
  · exact ⟨proper.distinct, proper.resolved⟩
  · next found _ =>
    have all : ∀ index ∈ selecting selectors found, ∃ selector resolved,
        selectors[index]? = some (selector, .ok resolved) := fun _ => resolved_of_selecting
    generalize selecting selectors found = places at all
    induction places generalizing survey with
    | nil => exact proper
    | cons index rest ih =>
      obtain ⟨selector, resolved, known⟩ := all index List.mem_cons_self
      exact ih (proper.note known function found.closures) fun i later => all i (List.mem_cons_of_mem _ later)

theorem proper_run (session : Session) (candidates : List UInt32) :
    Proper selectors (Survey.run session selectors candidates) := by
  have each (survey : Survey) (proper : Proper selectors survey) :
      Proper selectors (candidates.foldl (visit session selectors) survey) := by
    induction candidates generalizing survey with
    | nil => exact proper
    | cons function rest ih => exact ih _ (proper.visit session function)
  exact each {} ⟨List.nodup_nil, fun hit member => by cases member⟩

end Survey

namespace PatchRun

-- What a run does at one hit.
def applyHit (patches : List Patch) (run : PatchRun) (hit : Hit) : PatchRun :=
  match patches[hit.index]? with
  | none => run
  | some (.replace _ insns) =>
    let (session, result) := run.session.replaceAll hit.function insns
    run.record hit session (result.map fun _ => []) []
  | some (.nested _ inner) =>
    let done := runPatchesOn run.session inner hit.closures
    run.record hit done.session (.ok done.outcomes) done.warnings
  | some (.apply _ change) =>
    let (session, result) := change run.session hit.function
    run.record hit session (result.map fun _ => []) []

end PatchRun

theorem runPatchesOn_eq (session : Session) (patches : List Patch) (candidates : List UInt32) :
    runPatchesOn session patches candidates =
      let resolved := patches.map fun patch => patch.selector.resolve session
      let selectors := (patches.map (·.selector)).zip resolved
      let survey := Survey.run session selectors candidates
      let start : PatchRun := ⟨session, [], survey.warnings ++ survey.missed selectors⟩
      let run := survey.hits.foldl (PatchRun.applyHit patches) start
      ⟨run.session, run.outcomesFor resolved, run.warnings⟩ := by
  rw [runPatchesOn]
  -- The three parts of the result come from one fold, whose step looks the patch up with a proof of where it was found.
  congr! 5 with run hit run hit run hit
  all_goals
    unfold PatchRun.applyHit
    split
    · next selected => simp only [selected]
    · next selected => simp only [selected]
    · next selected => simp only [selected]
    · next selected => simp only [selected]

-- Runs of these patches replace what their outcomes report, and nothing else.
def Faithful (patches : List Patch) : Prop :=
  ∀ session candidates, ∃ log, Session.Replaces session log (runPatchesOn session patches candidates).session ∧
    ∀ id insns, (id, insns) ∈ log ↔ Reported patches (runPatchesOn session patches candidates).outcomes id insns

namespace Patch

theorem reports_replace_iff {selector : Selector} {insns insns' : List Instruction} {outcome : Outcome} {id : UInt32} :
    Reports (.replace selector insns) outcome id insns' ↔ outcome.function? = some id ∧ insns' = insns := by
  constructor
  · intro reports
    cases reports with
    | replaced named => exact ⟨named, rfl⟩
  · rintro ⟨named, rfl⟩
    exact .replaced named

theorem reports_nested_iff {selector : Selector} {patches : List Patch} {outcome : Outcome} {id : UInt32}
    {insns : List Instruction} :
    Reports (.nested selector patches) outcome id insns ↔ Reported patches outcome.nested id insns := by
  constructor
  · intro reports
    cases reports with
    | within listed inner => exact ⟨_, _, listed, inner⟩
  · rintro ⟨patch, found, listed, inner⟩
    exact .within listed inner

-- An outcome that names no function reports nothing.
theorem not_reports {patch : Patch} {outcome : Outcome} (missing : outcome.function? = none) {id : UInt32}
    {insns : List Instruction} : ¬ patch.Reports outcome id insns := by
  intro reports
  cases reports with
  | replaced named => rw [missing] at named; cases named
  | within listed inner =>
    have none : outcome.nested = [] := by cases outcome <;> first | rfl | cases missing
    rw [none, List.zip_nil_right] at listed
    cases listed

end Patch

namespace PatchRun

-- Recording adds one outcome, which names the function unless the action failed.
theorem record_exact (run : PatchRun) (hit : Hit) (session : Session) (result : Except PatchError (List Outcome))
    (warnings : List Warning) :
    (run.record hit session result warnings).session = session ∧
      ∃ outcome, (run.record hit session result warnings).outcomes = run.outcomes ++ [(hit.index, outcome)] ∧
        match result with
        | .ok nested => outcome.function? = some hit.function ∧ outcome.nested = nested
        | .error _ => outcome.function? = none := by
  cases result with
  | error reason => exact ⟨rfl, _, rfl, rfl⟩
  | ok nested =>
    refine ⟨rfl, _, rfl, ?_⟩
    by_cases several : 1 < hit.count
    · simp [several, Outcome.function?, Outcome.nested]
    · simp [several, Outcome.function?, Outcome.nested]

-- What one hit does.
theorem applyHit_exact {patches : List Patch} {hit : Hit} {patch : Patch} (known : patches[hit.index]? = some patch)
    (data : ∀ selector change, patch ≠ .apply selector change)
    (inner : ∀ selector inner, patch = .nested selector inner → Faithful inner) (run : PatchRun) :
    ∃ outcome log, Session.Replaces run.session log (applyHit patches run hit).session ∧
      (applyHit patches run hit).outcomes = run.outcomes ++ [(hit.index, outcome)] ∧
      ∀ id insns, (id, insns) ∈ log ↔ patch.Reports outcome id insns := by
  cases patch with
  | apply selector change => exact absurd rfl (data selector change)
  | replace selector insns =>
    rcases (run.session.outcome_replaceAll hit.function insns).ends with ⟨reason, replaced⟩ | ⟨next, replaced⟩
    · have step : applyHit patches run hit = run.record hit run.session (.error reason) [] := by
        simp only [applyHit, known, replaced, Except.map]
      obtain ⟨session, outcome, recorded, none⟩ := run.record_exact hit run.session (.error reason) []
      refine ⟨outcome, [], ?_, by rw [step, recorded], ?_⟩
      · rw [step, session]
        exact .nil
      · intro id insns'
        simp [Patch.reports_replace_iff, none]
    · have step : applyHit patches run hit = run.record hit next (.ok []) [] := by
        simp only [applyHit, known, replaced, Except.map]
      obtain ⟨session, outcome, recorded, named, -⟩ := run.record_exact hit next (.ok []) []
      refine ⟨outcome, [(hit.function, insns)], ?_, by rw [step, recorded], ?_⟩
      · rw [step, session]
        exact Session.Replaces.nil.snoc replaced
      · intro id insns'
        simp [Patch.reports_replace_iff, named, eq_comm]
  | nested selector patches' =>
    have step : applyHit patches run hit = run.record hit (runPatchesOn run.session patches' hit.closures).session
        (.ok (runPatchesOn run.session patches' hit.closures).outcomes)
        (runPatchesOn run.session patches' hit.closures).warnings := by
      simp only [applyHit, known]
    obtain ⟨log, path, exact⟩ := inner selector patches' rfl run.session hit.closures
    obtain ⟨session, outcome, recorded, -, nested⟩ := run.record_exact hit
      (runPatchesOn run.session patches' hit.closures).session
      (.ok (runPatchesOn run.session patches' hit.closures).outcomes)
      (runPatchesOn run.session patches' hit.closures).warnings
    refine ⟨outcome, log, ?_, by rw [step, recorded], ?_⟩
    · rw [step, session]
      exact path
    · intro id insns
      rw [exact, Patch.reports_nested_iff, nested]

-- What the first hits did, with their outcomes by place.
structure Progress (session : Session) (patches : List Patch) (hits : List Hit) (run : PatchRun) : Prop where
  replaces : ∃ log, Session.Replaces session log run.session ∧ ∀ id insns, (id, insns) ∈ log ↔
    ∃ index outcome patch, (index, outcome) ∈ run.outcomes ∧ patches[index]? = some patch ∧
      patch.Reports outcome id insns
  places : run.outcomes.map (·.1) = hits.map Hit.index

theorem progress_foldl (session : Session) (warnings : List Warning) {patches : List Patch} {hits : List Hit}
    (known : ∀ hit ∈ hits, ∃ patch, patches[hit.index]? = some patch)
    (data : ∀ patch ∈ patches, ∀ selector change, patch ≠ .apply selector change)
    (inner : ∀ patch ∈ patches, ∀ selector inner, patch = .nested selector inner → Faithful inner) :
    Progress session patches hits (hits.foldl (applyHit patches) ⟨session, [], warnings⟩) := by
  induction hits using List.reverseRecOn with
  | nil =>
    refine ⟨⟨[], .nil, ?_⟩, rfl⟩
    intro id insns
    simp
  | append_singleton hits hit ih =>
    obtain ⟨⟨log, path, exact⟩, places⟩ := ih fun hit member => known hit (List.mem_append_left _ member)
    obtain ⟨patch, here⟩ := known hit (List.mem_append_right _ (List.mem_singleton.mpr rfl))
    have listed := List.mem_of_getElem? here
    rw [List.foldl_append, List.foldl_cons, List.foldl_nil]
    obtain ⟨outcome, more, next, recorded, reports⟩ := applyHit_exact here (data patch listed) (inner patch listed)
      (hits.foldl (applyHit patches) ⟨session, [], warnings⟩)
    refine ⟨⟨log ++ more, path.append next, ?_⟩, ?_⟩
    · intro id insns
      rw [recorded, List.mem_append, exact, reports]
      constructor
      · rintro (⟨index, found, patch', old, place, reported⟩ | reported)
        · exact ⟨index, found, patch', List.mem_append_left _ old, place, reported⟩
        · exact ⟨hit.index, outcome, patch, by simp, here, reported⟩
      · rintro ⟨index, found, patch', member, place, reported⟩
        rcases List.mem_append.mp member with old | new
        · exact .inl ⟨index, found, patch', old, place, reported⟩
        · cases List.mem_singleton.mp new
          cases here.symm.trans place
          exact .inr reported
    · rw [recorded]
      simp [places]

theorem find?_of_mem {outcomes : List (Nat × Outcome)} (distinct : (outcomes.map (·.1)).Nodup) {index : Nat}
    {outcome : Outcome} (member : (index, outcome) ∈ outcomes) :
    outcomes.find? (·.1 == index) = some (index, outcome) := by
  induction outcomes with
  | nil => cases member
  | cons first rest ih =>
    rw [List.map_cons, List.nodup_cons] at distinct
    rcases List.mem_cons.mp member with rfl | later
    · simp
    · have apart : first.1 ≠ index := by
        intro same
        exact distinct.1 (same ▸ List.mem_map_of_mem later)
      rw [List.find?_cons_of_neg (by simpa using apart)]
      exact ih distinct.2 later

-- The outcomes are given by place, and those of patches that did nothing report nothing.
theorem reported_outcomesFor {run : PatchRun} {patches : List Patch} {resolved : List (Except PatchError ResolvedSelector)}
    (distinct : (run.outcomes.map (·.1)).Nodup)
    (found : ∀ index outcome, (index, outcome) ∈ run.outcomes → ∃ selector, resolved[index]? = some (.ok selector))
    (id : UInt32) (insns : List Instruction) :
    Reported patches (run.outcomesFor resolved) id insns ↔
      ∃ index outcome patch, (index, outcome) ∈ run.outcomes ∧ patches[index]? = some patch ∧
        patch.Reports outcome id insns := by
  constructor
  · rintro ⟨patch, outcome, listed, reports⟩
    obtain ⟨index, place⟩ := List.mem_iff_getElem?.mp listed
    obtain ⟨here, there⟩ := List.getElem?_zip_eq_some.mp place
    rw [outcomesFor, List.getElem?_map, List.getElem?_zipIdx, Option.map_map] at there
    obtain ⟨selector, -, same⟩ := Option.map_eq_some_iff.mp there
    cases selector with
    | error reason =>
      subst same
      exact absurd reports (Patch.not_reports rfl)
    | ok selector =>
      simp only [Function.comp_apply, Nat.zero_add] at same
      cases hit : run.outcomes.find? (·.1 == index) with
      | none =>
        rw [hit] at same
        subst same
        exact absurd reports (Patch.not_reports rfl)
      | some entry =>
        rw [hit] at same
        have equal : entry.1 = index := by simpa using List.find?_some hit
        refine ⟨index, outcome, patch, ?_, here, reports⟩
        have member := List.mem_of_find?_eq_some hit
        rwa [← same, ← equal]
  · rintro ⟨index, outcome, patch, member, here, reports⟩
    obtain ⟨selector, known⟩ := found index outcome member
    refine ⟨patch, outcome, List.mem_iff_getElem?.mpr ⟨index, List.getElem?_zip_eq_some.mpr ⟨here, ?_⟩⟩, reports⟩
    rw [outcomesFor, List.getElem?_map, List.getElem?_zipIdx, known]
    simp [find?_of_mem distinct member]

end PatchRun

-- One level: the patches inside a nested patch are taken care of already.
theorem faithful_of_each {patches : List Patch}
    (data : ∀ patch ∈ patches, ∀ selector change, patch ≠ .apply selector change)
    (inner : ∀ patch ∈ patches, ∀ selector inner, patch = .nested selector inner → Faithful inner) :
    Faithful patches := by
  intro session candidates
  rw [runPatchesOn_eq]
  simp only
  have proper := @Survey.proper_run ((patches.map (·.selector)).zip (patches.map fun patch =>
    patch.selector.resolve session)) session candidates
  generalize Survey.run session _ candidates = survey at proper
  have known : ∀ hit ∈ survey.hits, ∃ patch, patches[hit.index]? = some patch ∧
      ∃ resolved, patch.selector.resolve session = .ok resolved := by
    intro hit member
    obtain ⟨selector, resolved, place⟩ := proper.resolved hit member
    obtain ⟨-, right⟩ := List.getElem?_zip_eq_some.mp place
    rw [List.getElem?_map] at right
    obtain ⟨patch, here, made⟩ := Option.map_eq_some_iff.mp right
    exact ⟨patch, here, resolved, made⟩
  generalize survey.warnings ++ _ = warnings
  obtain ⟨⟨log, path, exact⟩, places⟩ := PatchRun.progress_foldl session warnings
    (fun hit member => (known hit member).imp fun _ facts => facts.1) data inner
  refine ⟨log, path, ?_⟩
  intro id insns
  rw [exact, PatchRun.reported_outcomesFor (places ▸ proper.distinct)]
  intro index outcome member
  have place : index ∈ survey.hits.map Hit.index := places ▸ List.mem_map_of_mem member
  obtain ⟨hit, listed, rfl⟩ := List.mem_map.mp place
  obtain ⟨patch, here, resolved, made⟩ := known hit listed
  exact ⟨resolved, by rw [List.getElem?_map, here, Option.map_some, made]⟩

-- All levels, by induction on the depth of nesting.
theorem faithful_of_declarative {patches : List Patch} (declarative : ∀ patch ∈ patches, patch.Declarative) :
    Faithful patches := by
  have data (patch : Patch) (plain : patch.Declarative) (selector : Selector)
      (change : Session → UInt32 → Session × Except PatchError Unit) : patch ≠ .apply selector change := by
    rintro rfl
    cases plain
  have deep (patch : Patch) (plain : patch.Declarative) :
      ∀ selector inner, patch = .nested selector inner → Faithful inner := by
    induction plain with
    | replace selector insns =>
      intro _ _ other
      cases other
    | nested selector plain ih =>
      intro _ _ same
      cases same
      exact faithful_of_each (fun patch member => data patch (plain patch member)) ih
  exact faithful_of_each (fun patch member => data patch (declarative patch member))
    fun patch member => deep patch (declarative patch member)

end CodeImage
