import CodeImage.Proofs.Surveyed

namespace CodeImage

-- What a patch does at a function; the functions that this refers to were looked up before.
def Patch.act (session : Session) (function : UInt32) (closures : List UInt32) :
    Patch → Session × Except PatchError (List Outcome)
  | .replace _ insns => ((session.replaceAll function insns).1, (session.replaceAll function insns).2.map fun _ => [])
  | .nested _ patches =>
    ((runPatchesOn session patches closures).session, .ok (runPatchesOn session patches closures).outcomes)
  | .apply _ change => ((change session function).1, (change session function).2.map fun _ => [])

-- What is reported about a hit, by how the action ended.
def Hit.outcome (hit : Hit) : Except PatchError (List Outcome) → Outcome
  | .error reason => .failed reason
  | .ok nested => if 1 < hit.count then .notUnique hit.function hit.count nested else .applied hit.function nested

-- Actions one after the other, each with how it ended.
inductive Acts (patches : List Patch) : Session → List (Hit × Except PatchError (List Outcome)) → Session → Prop where
  | nil (session : Session) : Acts patches session [] session
  | cons {session middle next : Session} {hit : Hit} {patch : Patch} {result : Except PatchError (List Outcome)}
      {steps : List (Hit × Except PatchError (List Outcome))} (known : patches[hit.index]? = some patch)
      (acted : patch.act session hit.function hit.closures = (middle, result)) (later : Acts patches middle steps next) :
      Acts patches session ((hit, result) :: steps) next

variable {session next : Session} {patches : List Patch} {candidates : List UInt32} {function : UInt32}
  {steps : List (Hit × Except PatchError (List Outcome))}

namespace PatchRun

theorem record_eq (run : PatchRun) (hit : Hit) (session : Session) (result : Except PatchError (List Outcome))
    (warnings : List Warning) :
    (run.record hit session result warnings).session = session ∧
      (run.record hit session result warnings).outcomes = run.outcomes ++ [(hit.index, hit.outcome result)] := by
  cases result with
  | error reason => exact ⟨rfl, rfl⟩
  | ok nested => exact ⟨rfl, rfl⟩

-- One hit: the patch acts, and what became of it is noted.
theorem applyHit_eq {hit : Hit} {patch : Patch} (known : patches[hit.index]? = some patch) (run : PatchRun) :
    (applyHit patches run hit).session = (patch.act run.session hit.function hit.closures).1 ∧
      (applyHit patches run hit).outcomes =
        run.outcomes ++ [(hit.index, hit.outcome (patch.act run.session hit.function hit.closures).2)] := by
  cases patch with
  | replace selector insns =>
    simp only [applyHit, known, Patch.act]
    exact record_eq _ _ _ _ _
  | nested selector inner =>
    simp only [applyHit, known, Patch.act]
    exact record_eq _ _ _ _ _
  | apply selector change =>
    simp only [applyHit, known, Patch.act]
    exact record_eq _ _ _ _ _

-- All hits.
theorem acts_foldl {hits : List Hit} (known : ∀ hit ∈ hits, ∃ patch, patches[hit.index]? = some patch) (run : PatchRun) :
    ∃ steps, Acts patches run.session steps (hits.foldl (applyHit patches) run).session ∧ steps.map Prod.fst = hits ∧
      (hits.foldl (applyHit patches) run).outcomes =
        run.outcomes ++ steps.map fun step => (step.1.index, step.1.outcome step.2) := by
  induction hits generalizing run with
  | nil => exact ⟨[], .nil _, rfl, (List.append_nil _).symm⟩
  | cons hit hits ih =>
    obtain ⟨patch, here⟩ := known hit List.mem_cons_self
    obtain ⟨session, outcomes⟩ := applyHit_eq here run
    obtain ⟨steps, acts, listed, recorded⟩ := ih (fun hit member => known hit (List.mem_cons_of_mem _ member))
      (applyHit patches run hit)
    refine ⟨(hit, (patch.act run.session hit.function hit.closures).2) :: steps, ?_, ?_, ?_⟩
    · rw [session] at acts
      exact .cons here rfl acts
    · rw [List.map_cons, listed]
    · rw [List.foldl_cons, recorded, outcomes, List.append_assoc]
      rfl

theorem outcome_of_unresolved (run : PatchRun) {resolved : List (Except PatchError ResolvedSelector)} {index : Nat}
    {reason : PatchError} (known : resolved[index]? = some (.error reason)) :
    (run.outcomesFor resolved)[index]? = some (.failed reason) := by
  rw [outcomesFor, List.getElem?_map, List.getElem?_zipIdx, known]
  rfl

theorem outcome_of_resolved (run : PatchRun) {resolved : List (Except PatchError ResolvedSelector)} {index : Nat}
    {selector : ResolvedSelector} (known : resolved[index]? = some (.ok selector)) :
    (run.outcomesFor resolved)[index]? = some (((run.outcomes.find? (·.1 == index)).map (·.2)).getD .notFound) := by
  rw [outcomesFor, List.getElem?_map, List.getElem?_zipIdx, known]
  simp

end PatchRun

-- What a run did: the patches that select a candidate acted, once each and in the order of the survey, and the outcomes tell.
structure Account (session : Session) (patches : List Patch) (candidates : List UInt32) (done : Patched)
    (steps : List (Hit × Except PatchError (List Outcome))) : Prop where
  acts : Acts patches session steps done.session
  exact : ∀ hit, hit ∈ steps.map Prod.fst ↔ hit.Leads session patches candidates
  ordered : (steps.map Prod.fst).Pairwise (Hit.Before candidates)
  once : (steps.map fun step => step.1.index).Nodup
  reported : ∀ step ∈ steps, done.outcomes[step.1.index]? = some (step.1.outcome step.2)

theorem Hit.Leads.resolved {hit : Hit} (leads : hit.Leads session patches candidates) :
    ∃ patch resolved, patches[hit.index]? = some patch ∧ patch.selector.resolve session = .ok resolved := by
  obtain ⟨patch, known, first, -⟩ := leads.selected
  obtain ⟨-, found, -, accepts⟩ := Selector.mem_of_head?_selected first
  obtain ⟨resolved, done⟩ := accepts.resolves
  exact ⟨patch, resolved, known, done⟩

-- The run behind a result, with its steps.
theorem exists_steps (session : Session) (patches : List Patch) (candidates : List UInt32) :
    ∃ (run : PatchRun) (steps : List (Hit × Except PatchError (List Outcome))),
      runPatchesOn session patches candidates =
        ⟨run.session, run.outcomesFor (patches.map fun patch => patch.selector.resolve session), run.warnings⟩ ∧
      run.outcomes = steps.map (fun step => (step.1.index, step.1.outcome step.2)) ∧
      Acts patches session steps run.session ∧
      (∀ hit, hit ∈ steps.map Prod.fst ↔ hit.Leads session patches candidates) ∧
      (steps.map Prod.fst).Pairwise (Hit.Before candidates) ∧ (steps.map fun step => step.1.index).Nodup := by
  have covers := Survey.covers_run session patches candidates
  have proper := @Survey.proper_run (Survey.selectorsOf session patches) session candidates
  rw [runPatchesOn_eq]
  simp only
  rw [← Survey.selectorsOf]
  generalize Survey.run session (Survey.selectorsOf session patches) candidates = survey at covers proper
  have known : ∀ hit ∈ survey.hits, ∃ patch, patches[hit.index]? = some patch := by
    intro hit member
    obtain ⟨patch, -, here, -⟩ := ((covers.exact hit).mp member).resolved
    exact ⟨patch, here⟩
  obtain ⟨steps, acts, listed, recorded⟩ := PatchRun.acts_foldl known
    ⟨session, [], survey.warnings ++ survey.missed (Survey.selectorsOf session patches)⟩
  refine ⟨_, steps, rfl, recorded, acts, ?_, ?_, ?_⟩
  · rw [listed]
    exact covers.exact
  · rw [listed]
    exact covers.ordered
  · have places : (steps.map fun step => step.1.index) = survey.hits.map Hit.index := by
      rw [← listed, List.map_map]
      rfl
    rw [places]
    exact proper.distinct

theorem exists_account (session : Session) (patches : List Patch) (candidates : List UInt32) :
    ∃ steps, Account session patches candidates (runPatchesOn session patches candidates) steps := by
  obtain ⟨run, steps, done, recorded, acts, exact, ordered, once⟩ := exists_steps session patches candidates
  rw [done]
  refine ⟨steps, acts, exact, ordered, once, ?_⟩
  intro step member
  obtain ⟨patch, resolved, known, resolves⟩ := ((exact step.1).mp (List.mem_map_of_mem member)).resolved
  have distinct : (run.outcomes.map (·.1)).Nodup := by
    rw [recorded, List.map_map]
    exact once
  have noted : (step.1.index, step.1.outcome step.2) ∈ run.outcomes := by
    rw [recorded]
    exact List.mem_map.mpr ⟨step, member, rfl⟩
  have place : (patches.map fun patch => patch.selector.resolve session)[step.1.index]? = some (.ok resolved) := by
    rw [List.getElem?_map, known, Option.map_some, resolves]
  rw [PatchRun.outcome_of_resolved run place, PatchRun.find?_of_mem distinct noted]
  rfl

-- A patch whose texts stand for no string is reported as failed.
theorem outcome_of_unresolved {index : Nat} {patch : Patch} (known : patches[index]? = some patch)
    (missing : patch.selector.Unresolved session) :
    ∃ reason, (runPatchesOn session patches candidates).outcomes[index]? = some (.failed reason) := by
  obtain ⟨run, steps, done, -⟩ := exists_steps session patches candidates
  obtain ⟨reason, failed⟩ := Selector.resolve_fails_iff.mpr missing
  refine ⟨reason, ?_⟩
  rw [done]
  exact run.outcome_of_unresolved (by rw [List.getElem?_map, known, Option.map_some, failed])

-- One that selects no candidate is reported as such.
theorem outcome_of_unmatched {index : Nat} {patch : Patch} (known : patches[index]? = some patch)
    (resolvable : ¬ patch.selector.Unresolved session) (unmatched : patch.selector.selected session candidates = []) :
    (runPatchesOn session patches candidates).outcomes[index]? = some .notFound := by
  obtain ⟨run, steps, done, recorded, -, exact, -⟩ := exists_steps session patches candidates
  cases resolves : patch.selector.resolve session with
  | error reason => exact absurd (Selector.resolve_fails_iff.mp ⟨reason, resolves⟩) resolvable
  | ok resolved =>
    have idle : run.outcomes.find? (·.1 == index) = none := by
      rw [recorded, List.find?_eq_none]
      intro entry member
      obtain ⟨step, listed, rfl⟩ := List.mem_map.mp member
      obtain ⟨patch', known', first, -⟩ := ((exact step.1).mp (List.mem_map_of_mem listed)).selected
      intro same
      simp only [beq_iff_eq] at same
      rw [same] at known'
      cases known.symm.trans known'
      rw [unmatched] at first
      cases first
    rw [done]
    refine (run.outcome_of_resolved (by rw [List.getElem?_map, known, Option.map_some, resolves])).trans ?_
    rw [idle]
    rfl

theorem length_outcomes (session : Session) (patches : List Patch) (candidates : List UInt32) :
    (runPatchesOn session patches candidates).outcomes.length = patches.length := by
  obtain ⟨run, steps, done, -⟩ := exists_steps session patches candidates
  rw [done]
  simp [PatchRun.outcomesFor]

namespace Session

-- What replacing the code of a function does to all code.
theorem replaceAll_code {id : UInt32} {insns : List Instruction} (orderly : session.Orderly)
    (done : session.replaceAll id insns = (next, .ok ())) :
    next.Orderly ∧ (∀ other, other ≠ id → next.code other = session.code other) ∧
      ∃ rope, next.code id = .ok rope ∧ Instruction.encodeAll insns = .ok rope.toBytes := by
  obtain ⟨others, orderly', -, kept, replaced⟩ := (Replaces.nil.snoc done).replaced orderly
  refine ⟨orderly', ?_, ?_⟩
  · intro other apart
    have same := kept other (by simp [apart])
    have image : next.image = session.image := by rw [others]
    simp only [code, same, image]
  · obtain ⟨last, rope, listed, found, encoded⟩ := replaced id insns (by simp)
    obtain rfl : last = insns := by simpa using listed
    exact ⟨rope, by simp only [code, found], encoded⟩

end Session

-- Patches that all replace the code of a function.
def Replacing (patches : List Patch) : Prop := ∀ patch ∈ patches, ∃ selector insns, patch = .replace selector insns

-- A patch that gives a function new code, if it acts there.
def Patch.Encodes (patch : Patch) (data : ByteArray) : Prop :=
  ∃ selector insns, patch = .replace selector insns ∧ Instruction.encodeAll insns = .ok data

-- The patch selects this function first, and has code for it.
def Patch.Writes (session : Session) (candidates : List UInt32) (function : UInt32) (patch : Patch) (data : ByteArray) :
    Prop :=
  (patch.selector.selected session candidates).head? = some function ∧ patch.Encodes data

-- One replacement: it fails, without effect, if there is no code for its instructions.
theorem Patch.act_replace {selector : Selector} {insns : List Instruction} {closures : List UInt32} {middle : Session}
    {result : Except PatchError (List Outcome)} (orderly : session.Orderly)
    (acted : (Patch.replace selector insns).act session function closures = (middle, result)) :
    middle.Orderly ∧ (∀ other, other ≠ function → middle.code other = session.code other) ∧
      ((∃ rope, session.code function = .ok rope) → ∀ data, Instruction.encodeAll insns = .ok data →
        ∃ rope, middle.code function = .ok rope ∧ rope.toBytes = data) ∧
      ((∀ data, Instruction.encodeAll insns ≠ .ok data) → middle = session) := by
  rcases (session.outcome_replaceAll function insns).ends with ⟨reason, replaced⟩ | ⟨next, replaced⟩
  · rw [Patch.act, replaced] at acted
    cases acted
    refine ⟨orderly, fun _ _ => rfl, ?_, fun _ => rfl⟩
    rintro ⟨rope, known⟩ data encoded
    -- The function is there, so only the instructions could have been refused.
    have here := Session.lt_of_code orderly.inside known
    have exists' : session.image.function function = .ok _ := Image.function_ok_iff.mpr (Array.getElem?_eq_getElem here)
    have written := Session.replaceAll_exact.mpr ⟨rope, data, known, ⟨_, exists'⟩, encoded, rfl⟩
    cases congrArg Prod.snd (replaced.symm.trans written)
  · rw [Patch.act, replaced] at acted
    cases acted
    obtain ⟨orderly', others, rope, known, encoded⟩ := Session.replaceAll_code orderly replaced
    refine ⟨orderly', others, ?_, fun none => absurd encoded (none _)⟩
    intro _ data same
    exact ⟨rope, known, Except.ok.inj (encoded.symm.trans same)⟩

namespace Acts

theorem split {before after : List (Hit × Except PatchError (List Outcome))}
    (acts : Acts patches session (before ++ after) next) :
    ∃ middle, Acts patches session before middle ∧ Acts patches middle after next := by
  induction before generalizing session with
  | nil => exact ⟨session, .nil _, acts⟩
  | cons step before ih =>
    cases acts with
    | cons known acted later =>
      obtain ⟨middle, first, second⟩ := ih later
      exact ⟨middle, .cons known acted first, second⟩

-- Replacements leave code in place of code.
theorem steady (acts : Acts patches session steps next) (plain : Replacing patches) (orderly : session.Orderly)
    (coded : ∃ rope, session.code function = .ok rope) : next.Orderly ∧ ∃ rope, next.code function = .ok rope := by
  induction acts with
  | nil => exact ⟨orderly, coded⟩
  | @cons session middle next hit patch result steps known acted _ ih =>
    obtain ⟨selector, insns, rfl⟩ := plain patch (List.mem_of_getElem? known)
    obtain ⟨orderly', others, written, silent⟩ := Patch.act_replace orderly acted
    refine ih orderly' ?_
    by_cases here : function = hit.function
    · subst here
      cases encoded : Instruction.encodeAll insns with
      | ok data =>
        obtain ⟨rope, known, -⟩ := written coded data encoded
        exact ⟨rope, known⟩
      | error e =>
        rw [silent (by simp [encoded])]
        exact coded
    · rw [others function here]
      exact coded

-- Code at which no replacement has anything to put stays as it is.
theorem kept (acts : Acts patches session steps next) (plain : Replacing patches) (orderly : session.Orderly)
    (silent : ∀ step ∈ steps, step.1.function = function → ∀ patch, patches[step.1.index]? = some patch →
      ∀ data, ¬ patch.Encodes data) : next.code function = session.code function := by
  induction acts with
  | nil => rfl
  | @cons session middle next hit patch result steps known acted _ ih =>
    obtain ⟨selector, insns, rfl⟩ := plain patch (List.mem_of_getElem? known)
    obtain ⟨orderly', others, -, idle⟩ := Patch.act_replace orderly acted
    refine (ih orderly' fun step member => silent step (List.mem_cons_of_mem _ member)).trans ?_
    by_cases here : hit.function = function
    · have unencoded := silent _ List.mem_cons_self here _ known
      rw [idle fun data encoded => unencoded data ⟨selector, insns, rfl, encoded⟩]
    · exact others function (Ne.symm here)

-- The last replacement that has something to put there remains.
theorem written {before after : List (Hit × Except PatchError (List Outcome))} {hit : Hit} {patch : Patch}
    {result : Except PatchError (List Outcome)} {data : ByteArray}
    (acts : Acts patches session (before ++ (hit, result) :: after) next) (plain : Replacing patches)
    (orderly : session.Orderly)
    (coded : ∃ rope, session.code hit.function = .ok rope) (known : patches[hit.index]? = some patch)
    (encodes : patch.Encodes data)
    (silent : ∀ step ∈ after, step.1.function = hit.function → ∀ patch, patches[step.1.index]? = some patch →
      ∀ data, ¬ patch.Encodes data) : ∃ rope, next.code hit.function = .ok rope ∧ rope.toBytes = data := by
  obtain ⟨middle, first, second⟩ := acts.split
  obtain ⟨orderly', coded'⟩ := first.steady plain orderly coded
  obtain ⟨selector, insns, rfl, encoded⟩ := encodes
  cases second with
  | cons known' acted later =>
    cases known.symm.trans known'
    obtain ⟨orderly'', -, written, -⟩ := Patch.act_replace orderly' acted
    rw [later.kept plain orderly'' silent]
    exact written coded' data encoded

end Acts

-- Every patch that selects a candidate has its step.
theorem Account.step_of_selected {done : Patched} (account : Account session patches candidates done steps) {index : Nat}
    {patch : Patch} (known : patches[index]? = some patch) {others : List UInt32}
    (selected : patch.selector.selected session candidates = function :: others) :
    ∃ closures result, (⟨index, function, closures, others.length + 1⟩, result) ∈ steps := by
  have first : (patch.selector.selected session candidates).head? = some function := by rw [selected, List.head?_cons]
  obtain ⟨-, found, taken, -⟩ := Selector.mem_of_head?_selected first
  have leads : Hit.Leads session patches candidates ⟨index, function, found.closures, others.length + 1⟩ :=
    ⟨⟨patch, known, first, by rw [selected, List.length_cons]⟩, found, taken, rfl⟩
  obtain ⟨⟨_, result⟩, member, rfl⟩ := List.mem_map.mp ((account.exact _).mpr leads)
  exact ⟨found.closures, result, member⟩

theorem Account.head_of_step {done : Patched} (account : Account session patches candidates done steps)
    {step : Hit × Except PatchError (List Outcome)} (member : step ∈ steps) {patch : Patch}
    (known : patches[step.1.index]? = some patch) :
    (patch.selector.selected session candidates).head? = some step.1.function := by
  obtain ⟨patch', known', first, -⟩ := ((account.exact step.1).mp (List.mem_map_of_mem member)).selected
  cases known.symm.trans known'
  exact first

-- Of all patches with code for a function that they select first, the last one of the list remains.
theorem Account.last_written {done : Patched} (account : Account session patches candidates done steps)
    (plain : Replacing patches) (orderly : session.Orderly) (coded : ∃ rope, session.code function = .ok rope)
    {index : Nat} {patch : Patch} {data : ByteArray} (known : patches[index]? = some patch)
    (writes : patch.Writes session candidates function data)
    (last : ∀ later patch' data', index < later → patches[later]? = some patch' →
      ¬ patch'.Writes session candidates function data') :
    ∃ rope, done.session.code function = .ok rope ∧ rope.toBytes = data := by
  obtain ⟨others, selected⟩ := List.head?_eq_some_iff.mp writes.1
  obtain ⟨closures, result, member⟩ := account.step_of_selected known selected
  obtain ⟨before, after, rfl⟩ := List.append_of_mem member
  refine account.acts.written plain orderly coded known writes.2 ?_
  intro step later same patch' known' data' encodes
  have ordered := account.ordered
  rw [List.map_append, List.map_cons, List.pairwise_append] at ordered
  -- Two hits of one candidate are in the order of the list.
  rcases List.rel_of_pairwise_cons ordered.2.1 (List.mem_map_of_mem later) with earlier | ⟨-, place⟩
  · rw [same] at earlier
    exact absurd earlier (Nat.lt_irrefl _)
  · have first := account.head_of_step (List.mem_append_right _ (List.mem_cons_of_mem _ later)) known'
    rw [same] at first
    exact last _ _ data' place known' ⟨first, encodes⟩

theorem Account.unwritten {done : Patched} (account : Account session patches candidates done steps)
    (plain : Replacing patches) (orderly : session.Orderly)
    (none : ∀ patch ∈ patches, ∀ data, ¬ patch.Writes session candidates function data) :
    done.session.code function = session.code function := by
  refine account.acts.kept plain orderly ?_
  intro step member same patch known data encodes
  have first := account.head_of_step member known
  rw [same] at first
  exact none patch (List.mem_of_getElem? known) data ⟨first, encodes⟩

-- A run settles every patch, by the session as it was, and does what it reports.
theorem patches_act_on_first_match (session : Session) (patches : List Patch) (candidates : List UInt32) :
    (runPatchesOn session patches candidates).outcomes.length = patches.length ∧
    (∃ steps, Account session patches candidates (runPatchesOn session patches candidates) steps ∧
      ∀ (index : Nat) (patch : Patch), patches[index]? = some patch →
        (patch.selector.Unresolved session →
          ∃ reason, (runPatchesOn session patches candidates).outcomes[index]? = some (.failed reason)) ∧
        (¬ patch.selector.Unresolved session → patch.selector.selected session candidates = [] →
          (runPatchesOn session patches candidates).outcomes[index]? = some .notFound) ∧
        -- The first of those selected is acted on, and all are counted.
        (∀ function others, patch.selector.selected session candidates = function :: others →
          ∃ closures result, (⟨index, function, closures, others.length + 1⟩, result) ∈ steps ∧
            (runPatchesOn session patches candidates).outcomes[index]? = some (match result with
              | .error reason => .failed reason
              | .ok nested => if others = [] then .applied function nested
                else .notUnique function (others.length + 1) nested))) ∧
    -- What is selected fits the texts.
    (∀ selector function, Selector.Selects session selector function →
      ∃ found, Fingerprint.ofFunction session function = .ok found ∧ selector.Describes session found) ∧
    -- Where all patches are replacements, the last one for a function remains.
    (session.Reached → Replacing patches → ∀ function old, session.code function = .ok old →
      ∃ new, (runPatchesOn session patches candidates).session.code function = .ok new ∧
        (∀ (index : Nat) (patch : Patch) data, patches[index]? = some patch →
          patch.Writes session candidates function data →
          (∀ (later : Nat) (patch' : Patch) data', index < later → patches[later]? = some patch' →
            ¬ patch'.Writes session candidates function data') → new.toBytes = data) ∧
        ((∀ patch ∈ patches, ∀ data, ¬ patch.Writes session candidates function data) → new = old)) := by
  obtain ⟨steps, account⟩ := exists_account session patches candidates
  refine ⟨length_outcomes session patches candidates, ⟨steps, account, ?_⟩, ?_, ?_⟩
  · intro index patch known
    refine ⟨outcome_of_unresolved known, outcome_of_unmatched known, ?_⟩
    intro function others selected
    obtain ⟨closures, result, member⟩ := account.step_of_selected known selected
    refine ⟨closures, result, member, (account.reported _ member).trans ?_⟩
    cases result with
    | error reason => rfl
    | ok nested => cases others <;> simp [Hit.outcome]
  · rintro selector function ⟨found, taken, accepts⟩
    exact ⟨found, taken, accepts.describes⟩
  · intro reached plain function old known
    have orderly := reached.orderly
    obtain ⟨-, new, coded⟩ := account.acts.steady plain orderly ⟨old, known⟩
    refine ⟨new, coded, ?_, ?_⟩
    · intro index patch data listed writes last
      obtain ⟨rope, same, bytes⟩ := account.last_written plain orderly ⟨old, known⟩ listed writes last
      cases coded.symm.trans same
      exact bytes
    · intro none
      exact Except.ok.inj (coded.symm.trans ((account.unwritten plain orderly none).trans known))

-- Four replacements: one that both functions fit, one without an encoding, one with a name that is not there, and one with
-- an instruction that no function uses.
def sampleReplacements : List Patch :=
  [.replace {} [⟨Session.sampleOpcode 92, [.int 0]⟩], .replace {} Session.sampleUnfit,
    .replace { identifier := some "get" } [], .replace { opcodes := [Session.sampleOpcode 0] } []]

theorem sampleReplacements_selected :
    sampleReplacements.map (fun patch => patch.selector.selected (.start Session.sampleShared) [0, 1]) =
      [[0, 1], [0, 1], [], []] := by decide +kernel

theorem sampleUnfit_unencodable (data : ByteArray) : Instruction.encodeAll Session.sampleUnfit ≠ .ok data := by
  have none : (Instruction.encodeAll Session.sampleUnfit).toOption = none := by decide +kernel
  intro encoded
  rw [encoded] at none
  cases none

theorem sample_first_match :
    (∃ result : Except PatchError (List Outcome),
      (runPatchesOn (.start Session.sampleShared) sampleReplacements [0, 1]).outcomes[0]? = some (match result with
        | .error reason => .failed reason
        | .ok nested => .notUnique 0 2 nested)) ∧
    (∃ reason, (runPatchesOn (.start Session.sampleShared) sampleReplacements [0, 1]).outcomes[2]? = some (.failed reason)) ∧
    (runPatchesOn (.start Session.sampleShared) sampleReplacements [0, 1]).outcomes[3]? = some .notFound ∧
    ∃ new, (runPatchesOn (.start Session.sampleShared) sampleReplacements [0, 1]).session.code 0 = .ok new ∧
      new.toBytes = ⟨#[92, 0]⟩ := by
  obtain ⟨-, ⟨steps, -, settled⟩, -, replaced⟩ :=
    patches_act_on_first_match (.start Session.sampleShared) sampleReplacements [0, 1]
  have selected := sampleReplacements_selected
  simp only [sampleReplacements, List.map_cons, List.map_nil, List.cons.injEq, and_true] at selected
  obtain ⟨first, second, third, fourth⟩ := selected
  refine ⟨?_, ?_, ?_, ?_⟩
  · obtain ⟨-, result, -, outcome⟩ := (settled 0 _ rfl).2.2 0 [1] first
    exact ⟨result, outcome⟩
  · refine (settled 2 _ rfl).1 (.inl ⟨"get", rfl, ?_⟩)
    decide +kernel
  · refine (settled 3 _ rfl).2.1 ?_ fourth
    rintro (⟨name, given, -⟩ | ⟨text, listed, -⟩)
    · cases given
    · cases listed
  · have plain : Replacing sampleReplacements := by simp [Replacing, sampleReplacements]
    obtain ⟨new, coded, last, -⟩ := replaced ⟨_, [], rfl⟩ plain 0 (.leaf ⟨#[118, 0, 92, 0]⟩) rfl
    refine ⟨new, coded, last 0 _ _ rfl ⟨by rw [first, List.head?_cons], _, _, rfl, by decide +kernel⟩ ?_⟩
    intro later patch data after known writes
    match later, known with
    | 1, known =>
      cases known
      obtain ⟨-, selector, insns, same, encoded⟩ := writes
      cases same
      exact sampleUnfit_unencodable data encoded
    | 2, known =>
      cases known
      rw [Patch.Writes, third] at writes
      cases writes.1
    | 3, known =>
      cases known
      rw [Patch.Writes, fourth] at writes
      cases writes.1
    | later + 4, known => cases known

end CodeImage
