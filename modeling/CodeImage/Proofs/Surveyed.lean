import CodeImage.Proofs.Patched
import CodeImage.Proofs.Selection

namespace CodeImage

namespace Hit

-- A patch of the list, with the first candidate that it selects, what that refers to, and the number of those selected.
structure Leads (session : Session) (patches : List Patch) (candidates : List UInt32) (hit : Hit) : Prop where
  selected : ∃ patch, patches[hit.index]? = some patch ∧
    (patch.selector.selected session candidates).head? = some hit.function ∧
    (patch.selector.selected session candidates).length = hit.count
  referring : ∃ found, Fingerprint.ofFunction session hit.function = .ok found ∧ hit.closures = found.closures

theorem Leads.eq_of_index {session : Session} {patches : List Patch} {candidates : List UInt32} {a b : Hit}
    (left : a.Leads session patches candidates) (right : b.Leads session patches candidates) (same : a.index = b.index) :
    a = b := by
  obtain ⟨⟨patch, known, first, count⟩, found, taken, referring⟩ := left
  obtain ⟨⟨patch', known', first', count'⟩, found', taken', referring'⟩ := right
  rw [same] at known
  cases known.symm.trans known'
  have function : a.function = b.function := Option.some.inj (first.symm.trans first')
  rw [function] at taken
  cases taken.symm.trans taken'
  cases a
  cases b
  simp_all

-- Hits come by candidate, and for one candidate by place in the list of patches.
def Before (candidates : List UInt32) (a b : Hit) : Prop :=
  candidates.idxOf a.function < candidates.idxOf b.function ∨ a.function = b.function ∧ a.index < b.index

-- A hit after a candidate that the patches at these places select.
def counted (places : List Nat) (hit : Hit) : Hit :=
  if hit.index ∈ places then { hit with count := hit.count + 1 } else hit

@[simp]
theorem counted_index (places : List Nat) (hit : Hit) : (counted places hit).index = hit.index := by
  unfold counted
  split <;> rfl

@[simp]
theorem counted_function (places : List Nat) (hit : Hit) : (counted places hit).function = hit.function := by
  unfold counted
  split <;> rfl

@[simp]
theorem counted_closures (places : List Nat) (hit : Hit) : (counted places hit).closures = hit.closures := by
  unfold counted
  split <;> rfl

theorem counted_snoc {places : List Nat} {index : Nat} (last : index ∉ places) :
    counted [index] ∘ counted places = counted (places ++ [index]) := by
  funext hit
  by_cases same : hit.index = index
  · simp [counted, same, last]
  · by_cases member : hit.index ∈ places <;> simp [counted, same, member]

end Hit

namespace Selector

variable {session : Session} {selector : Selector} {candidates : List UInt32} {function : UInt32}

theorem selected_snoc_of_selects (selects : selector.Selects session function) :
    selector.selected session (candidates ++ [function]) = selector.selected session candidates ++ [function] := by
  simp [selected, List.filter_append, selects]

theorem selected_snoc_of_not (refuses : ¬ selector.Selects session function) :
    selector.selected session (candidates ++ [function]) = selector.selected session candidates := by
  simp [selected, List.filter_append, refuses]

theorem mem_of_head?_selected (first : (selector.selected session candidates).head? = some function) :
    function ∈ candidates ∧ selector.Selects session function := by
  simpa [selected] using List.mem_of_head? first

end Selector

namespace Survey

variable {session : Session} {patches : List Patch} {candidates : List UInt32} {survey : Survey} {found : Fingerprint}
  {function : UInt32}

-- The selectors of patches, with their texts looked up.
def selectorsOf (session : Session) (patches : List Patch) : List (Selector × Except PatchError ResolvedSelector) :=
  (patches.map (·.selector)).zip (patches.map fun patch => patch.selector.resolve session)

theorem getElem?_selectorsOf (index : Nat) :
    (selectorsOf session patches)[index]? =
      patches[index]?.map fun patch => (patch.selector, patch.selector.resolve session) := by
  rw [selectorsOf, List.zip_map', List.getElem?_map]

theorem mem_selecting_iff {index : Nat} : index ∈ selecting (selectorsOf session patches) found ↔
    ∃ patch, patches[index]? = some patch ∧ patch.selector.Accepts session found := by
  constructor
  · intro member
    obtain ⟨⟨⟨selector, resolved⟩, place⟩, listed, picked⟩ := List.mem_filterMap.mp member
    have here := List.mem_zipIdx_iff_getElem?.mp listed
    rw [getElem?_selectorsOf] at here
    obtain ⟨patch, known, same⟩ := Option.map_eq_some_iff.mp here
    cases same
    cases done : patch.selector.resolve session with
    | error reason => simp [done] at picked
    | ok resolved =>
      simp only [done, Option.ite_none_right_eq_some, Option.some.injEq] at picked
      obtain ⟨selects, rfl⟩ := picked
      exact ⟨patch, known, (Selector.selects_iff done).mp selects⟩
  · rintro ⟨patch, known, accepts⟩
    obtain ⟨resolved, done⟩ := accepts.resolves
    have here : (selectorsOf session patches)[index]? = some (patch.selector, .ok resolved) := by
      rw [getElem?_selectorsOf, known, Option.map_some, done]
    refine List.mem_filterMap.mpr ⟨((patch.selector, .ok resolved), index), List.mem_zipIdx_iff_getElem?.mpr here, ?_⟩
    simp [(Selector.selects_iff done).mpr accepts]

theorem pairwise_selecting (selectors : List (Selector × Except PatchError ResolvedSelector)) (found : Fingerprint) :
    (selecting selectors found).Pairwise (· < ·) := by
  have numbered : (selectors.zipIdx.map Prod.snd).Pairwise (· < ·) := by
    rw [List.zipIdx_map_snd]
    exact List.pairwise_lt_range'
  refine List.Pairwise.filterMap _ ?_ (List.pairwise_map.mp numbered)
  rintro ⟨⟨selector, resolved⟩, place⟩ ⟨⟨selector', resolved'⟩, place'⟩ before index picked index' picked'
  cases resolved with
  | error reason => cases picked
  | ok resolved =>
    cases resolved' with
    | error reason => cases picked'
    | ok resolved' =>
      simp only [Option.ite_none_right_eq_some, Option.some.injEq] at picked picked'
      rwa [← picked.2, ← picked'.2]

theorem map_counted_of_notMem {places : List Nat} {hits : List Hit} (apart : ∀ hit ∈ hits, hit.index ∉ places) :
    hits.map (Hit.counted places) = hits := by
  refine (List.map_congr_left fun hit member => ?_).trans (List.map_id hits)
  simp [Hit.counted, apart hit member]

theorem hits_note (survey : Survey) (index : Nat) (function : UInt32) (closures : List UInt32) :
    (survey.note index function closures).hits = survey.hits.map (Hit.counted [index]) ++
      if index ∈ survey.hits.map Hit.index then [] else [⟨index, function, closures, 1⟩] := by
  have seen : survey.hits.any (·.index == index) = true ↔ index ∈ survey.hits.map Hit.index := by simp
  unfold note
  by_cases known : index ∈ survey.hits.map Hit.index
  · rw [if_pos (seen.mpr known), if_pos known, List.append_nil]
    exact List.map_congr_left fun hit _ => by simp [Hit.counted]
  · rw [if_neg (mt seen.mp known), if_neg known, map_counted_of_notMem]
    intro hit member same
    exact known (List.mem_singleton.mp same ▸ List.mem_map_of_mem member)

-- The hits of patches that select a candidate and had selected none.
def fresh (survey : Survey) (places : List Nat) (function : UInt32) (closures : List UInt32) : List Hit :=
  (places.filter fun index => index ∉ survey.hits.map Hit.index).map fun index => ⟨index, function, closures, 1⟩

theorem mem_fresh_iff {places : List Nat} {closures : List UInt32} {hit : Hit} :
    hit ∈ survey.fresh places function closures ↔
      hit.index ∈ places ∧ hit.index ∉ survey.hits.map Hit.index ∧ hit = ⟨hit.index, function, closures, 1⟩ := by
  simp only [fresh, List.mem_map, List.mem_filter, decide_eq_true_eq]
  constructor
  · rintro ⟨index, ⟨listed, unseen⟩, rfl⟩
    exact ⟨listed, unseen, rfl⟩
  · rintro ⟨listed, unseen, same⟩
    exact ⟨hit.index, ⟨listed, unseen⟩, same.symm⟩

theorem fresh_snoc (survey : Survey) (places : List Nat) (index : Nat) (function : UInt32) (closures : List UInt32) :
    survey.fresh (places ++ [index]) function closures = survey.fresh places function closures ++
      if index ∈ survey.hits.map Hit.index then [] else [⟨index, function, closures, 1⟩] := by
  by_cases seen : index ∈ survey.hits.map Hit.index
  · have none : [index].filter (fun index => index ∉ survey.hits.map Hit.index) = [] := by simpa using seen
    simp only [fresh, List.filter_append, List.map_append, if_pos seen, none, List.map_nil]
  · have only : [index].filter (fun index => index ∉ survey.hits.map Hit.index) = [index] := by simpa using seen
    simp only [fresh, List.filter_append, List.map_append, if_neg seen, only, List.map_cons, List.map_nil]

-- One candidate: hits that there are count it, and the other patches that select it are hit.
theorem hits_notes {places : List Nat} (distinct : places.Nodup) (function : UInt32) (closures : List UInt32)
    (survey : Survey) :
    (places.foldl (fun survey index => survey.note index function closures) survey).hits =
      survey.hits.map (Hit.counted places) ++ survey.fresh places function closures := by
  induction places using List.reverseRecOn with
  | nil =>
    rw [map_counted_of_notMem (by simp)]
    simp [fresh]
  | append_singleton places index ih =>
    obtain ⟨before, -, apart⟩ := List.nodup_append.mp distinct
    have last : index ∉ places := fun member => apart index member index (List.mem_singleton.mpr rfl) rfl
    have others : ∀ hit ∈ survey.fresh places function closures, hit.index ∉ [index] := by
      intro hit member same
      exact last (List.mem_singleton.mp same ▸ (mem_fresh_iff.mp member).1)
    have seen : index ∈ (survey.hits.map (Hit.counted places) ++ survey.fresh places function closures).map Hit.index ↔
        index ∈ survey.hits.map Hit.index := by
      have unlisted : index ∉ (survey.fresh places function closures).map Hit.index := by
        intro member
        obtain ⟨hit, listed, same⟩ := List.mem_map.mp member
        exact others hit listed (List.mem_singleton.mpr same)
      rw [List.map_append, List.map_map, List.mem_append, or_iff_left unlisted]
      simp
    rw [List.foldl_append, List.foldl_cons, List.foldl_nil, hits_note, ih before, fresh_snoc, List.map_append, List.map_map,
      Hit.counted_snoc last, map_counted_of_notMem others, List.append_assoc]
    simp only [seen]

-- What the survey has found after these candidates.
structure Covers (session : Session) (patches : List Patch) (seen : List UInt32) (survey : Survey) : Prop where
  exact : ∀ hit, hit ∈ survey.hits ↔ hit.Leads session patches seen
  ordered : survey.hits.Pairwise (Hit.Before seen)

-- What one candidate shows: the patches that select it, and the functions that it refers to.
structure Shows (session : Session) (patches : List Patch) (function : UInt32) (places : List Nat) (closures : List UInt32) :
    Prop where
  sorted : places.Pairwise (· < ·)
  exact : ∀ index patch, patches[index]? = some patch → (index ∈ places ↔ patch.selector.Selects session function)
  inside : ∀ index ∈ places, ∃ patch, patches[index]? = some patch
  referring : ∀ found, Fingerprint.ofFunction session function = .ok found → closures = found.closures

namespace Covers

variable {seen : List UInt32} {places : List Nat} {closures : List UInt32}

-- A patch is hit once it has selected a candidate.
theorem hit_iff (covers : Covers session patches seen survey) {index : Nat} {patch : Patch}
    (known : patches[index]? = some patch) :
    index ∈ survey.hits.map Hit.index ↔ patch.selector.selected session seen ≠ [] := by
  constructor
  · intro member
    obtain ⟨hit, listed, rfl⟩ := List.mem_map.mp member
    obtain ⟨patch', known', first, -⟩ := ((covers.exact hit).mp listed).selected
    cases known.symm.trans known'
    intro none
    rw [none] at first
    cases first
  · intro nonempty
    obtain ⟨first, others, same⟩ := List.exists_cons_of_ne_nil nonempty
    have head : (patch.selector.selected session seen).head? = some first := by rw [same, List.head?_cons]
    obtain ⟨-, found, taken, -⟩ := Selector.mem_of_head?_selected head
    have leads : Hit.Leads session patches seen ⟨index, first, found.closures, _⟩ :=
      ⟨⟨patch, known, head, rfl⟩, found, taken, rfl⟩
    exact List.mem_map_of_mem ((covers.exact _).mpr leads)

-- An earlier hit, after one more candidate.
theorem leads_counted (shows : Shows session patches function places closures) {hit : Hit}
    (leads : hit.Leads session patches seen) : (hit.counted places).Leads session patches (seen ++ [function]) := by
  obtain ⟨⟨patch, known, first, count⟩, found, taken, referring⟩ := leads
  refine ⟨⟨patch, by simpa using known, ?_⟩, found, by simpa using taken, by simpa using referring⟩
  by_cases member : hit.index ∈ places
  · rw [Selector.selected_snoc_of_selects ((shows.exact _ _ known).mp member), List.head?_append, first]
    simp [Hit.counted, member, count]
  · rw [Selector.selected_snoc_of_not (mt (shows.exact _ _ known).mpr member), first, count]
    simp [Hit.counted, member]

-- The first hit of a patch.
theorem leads_fresh (covers : Covers session patches seen survey) (shows : Shows session patches function places closures)
    {hit : Hit} (member : hit ∈ survey.fresh places function closures) : hit.Leads session patches (seen ++ [function]) := by
  obtain ⟨listed, unseen, same⟩ := mem_fresh_iff.mp member
  obtain ⟨patch, known⟩ := shows.inside _ listed
  have selects := (shows.exact _ _ known).mp listed
  have none : patch.selector.selected session seen = [] := by
    by_contra nonempty
    exact unseen ((covers.hit_iff known).mpr nonempty)
  obtain ⟨found, taken, -⟩ := id selects
  rw [same]
  refine ⟨⟨patch, known, ?_⟩, found, taken, shows.referring found taken⟩
  rw [Selector.selected_snoc_of_selects selects, none]
  exact ⟨rfl, rfl⟩

-- Every hit that there is to be after one more candidate is listed.
theorem mem_of_leads (covers : Covers session patches seen survey) (shows : Shows session patches function places closures)
    {hit : Hit} (leads : hit.Leads session patches (seen ++ [function])) :
    hit ∈ survey.hits.map (Hit.counted places) ∨ hit ∈ survey.fresh places function closures := by
  obtain ⟨patch, known, first, count⟩ := leads.selected
  by_cases unseen : hit.index ∈ survey.hits.map Hit.index
  · obtain ⟨old, listed, same⟩ := List.mem_map.mp unseen
    have after := leads_counted shows ((covers.exact old).mp listed)
    exact .inl (List.mem_map.mpr ⟨old, listed, after.eq_of_index leads (by simpa using same)⟩)
  · have none : patch.selector.selected session seen = [] := by
      by_contra nonempty
      exact unseen ((covers.hit_iff known).mpr nonempty)
    by_cases selects : patch.selector.Selects session function
    · obtain ⟨found, taken, referring⟩ := leads.referring
      rw [Selector.selected_snoc_of_selects selects, none] at first count
      have same : function = hit.function := by simpa using first
      refine .inr (mem_fresh_iff.mpr ⟨(shows.exact _ _ known).mpr selects, unseen, ?_⟩)
      rw [← same] at taken
      rw [shows.referring found taken, ← referring, same]
      cases hit
      simp_all
    · rw [Selector.selected_snoc_of_not selects, none] at first
      cases first

-- New hits are about a candidate that is new.
theorem notMem_of_fresh (covers : Covers session patches seen survey) (shows : Shows session patches function places closures)
    {hit : Hit} (member : hit ∈ survey.fresh places function closures) : function ∉ seen := by
  intro old
  obtain ⟨listed, unseen, -⟩ := mem_fresh_iff.mp member
  obtain ⟨patch, known⟩ := shows.inside _ listed
  have among : function ∈ patch.selector.selected session seen :=
    List.mem_filter.mpr ⟨old, by simpa using (shows.exact _ _ known).mp listed⟩
  exact unseen ((covers.hit_iff known).mpr (List.ne_nil_of_mem among))

theorem mem_seen (covers : Covers session patches seen survey) {hit : Hit} (member : hit ∈ survey.hits) :
    hit.function ∈ seen := by
  obtain ⟨patch, -, first, -⟩ := ((covers.exact hit).mp member).selected
  exact (Selector.mem_of_head?_selected first).1

-- One more candidate.
theorem snoc (covers : Covers session patches seen survey) (shows : Shows session patches function places closures)
    {next : Survey} (hits : next.hits = survey.hits.map (Hit.counted places) ++ survey.fresh places function closures) :
    Covers session patches (seen ++ [function]) next := by
  constructor
  · intro hit
    rw [hits, List.mem_append]
    constructor
    · rintro (old | new)
      · obtain ⟨hit, listed, rfl⟩ := List.mem_map.mp old
        exact leads_counted shows ((covers.exact hit).mp listed)
      · exact covers.leads_fresh shows new
    · exact covers.mem_of_leads shows
  · rw [hits, List.pairwise_append]
    refine ⟨List.pairwise_map.mpr ?_, List.pairwise_map.mpr ?_, ?_⟩
    · refine covers.ordered.imp_of_mem ?_
      intro a b left right before
      simpa [Hit.Before, List.idxOf_append_of_mem (covers.mem_seen left), List.idxOf_append_of_mem (covers.mem_seen right)]
        using before
    · exact (shows.sorted.filter _).imp fun before => .inr ⟨rfl, before⟩
    · intro a old b new
      obtain ⟨hit, listed, rfl⟩ := List.mem_map.mp old
      have about : b.function = function := by rw [(mem_fresh_iff.mp new).2.2]
      have place := List.idxOf_lt_length_of_mem (covers.mem_seen listed)
      left
      rw [Hit.counted_function, about, List.idxOf_append_of_mem (covers.mem_seen listed),
        List.idxOf_append_of_notMem (covers.notMem_of_fresh shows new)]
      omega

end Covers

-- A visit looks up what the candidate shows.
theorem covers_visit {seen : List UInt32} (covers : Covers session patches seen survey) (function : UInt32) :
    Covers session patches (seen ++ [function]) (survey.visit session (selectorsOf session patches) function) := by
  unfold visit
  cases taken : Fingerprint.ofFunction session function with
  | error reason =>
    have shows : Shows session patches function [] [] := by
      refine ⟨.nil, ?_, by simp, ?_⟩
      · simp [Selector.Selects, taken]
      · simp [taken]
    refine covers.snoc shows ?_
    rw [map_counted_of_notMem (by simp)]
    simp [fresh]
  | ok found =>
    have shows : Shows session patches function (selecting (selectorsOf session patches) found) found.closures := by
      refine ⟨pairwise_selecting _ _, ?_, ?_, ?_⟩
      · intro index patch known
        simp [mem_selecting_iff, known, Selector.Selects, taken]
      · intro index member
        obtain ⟨patch, known, -⟩ := mem_selecting_iff.mp member
        exact ⟨patch, known⟩
      · intro found' same
        cases taken.symm.trans same
        rfl
    exact covers.snoc shows (hits_notes shows.sorted.nodup function found.closures survey)

-- All candidates.
theorem covers_run (session : Session) (patches : List Patch) (candidates : List UInt32) :
    Covers session patches candidates (Survey.run session (selectorsOf session patches) candidates) := by
  induction candidates using List.reverseRecOn with
  | nil =>
    refine ⟨?_, .nil⟩
    intro hit
    constructor
    · intro member
      cases member
    · rintro ⟨⟨patch, -, first, -⟩, -⟩
      cases first
  | append_singleton seen function ih =>
    rw [Survey.run, List.foldl_append]
    exact covers_visit ih function

end Survey
end CodeImage
