import CodeImage.Stream.Fetch
import CodeImage.Proofs.Outcome
import CodeImage.Proofs.Stream

namespace CodeImage

-- The bytes of chunks, one after the other.
def joined : List ByteArray → ByteArray
  | [] => ByteArray.empty
  | chunk :: rest => chunk ++ joined rest

-- Where a computation stands: at its next part, between the requests of a group or waiting for them, or at its end.
inductive Stage (α : Type) where
  | running (fetch : Fetch α)
  | asking (left : List (Nat × Nat)) (ids : List Nat) (next : List ByteArray → Fetch α)
  | finished (result : Except ImageError α)

-- A computation, the stream, and the chunks that are still to come.
structure Transfer (α : Type) where
  stream : Stream
  inbox : List Answer
  left : List ByteArray
  stage : Stage α

-- Who takes the next step.
inductive Move where
  | deliver
  | work
deriving DecidableEq

namespace Transfer

variable {α : Type}

-- The next chunk arrives, or the stream ends when there is none.
def deliver (s : Transfer α) : Transfer α :=
  match s.left with
  | chunk :: rest =>
    { s with stream := (s.stream.feed chunk).1, inbox := s.inbox ++ (s.stream.feed chunk).2, left := rest }
  | [] => { s with stream := s.stream.finish.1, inbox := s.inbox ++ s.stream.finish.2 }

-- The computation looks whether all answers of a group are there.
def look (s : Transfer α) (ids : List Nat) (next : List ByteArray → Fetch α) : Transfer α :=
  match Fetch.collect s.inbox ids with
  | .ready parts => { s with stage := .running (next parts) }
  | .failed e => { s with stage := .finished (.error e) }
  | .incomplete => s

-- The computation takes one step: at most one request, or a look at the answers.
def work (s : Transfer α) : Transfer α :=
  match s.stage with
  | .running (.done result) => { s with stage := .finished result }
  | .running (.ask ranges next) => { s with stage := .asking ranges [] next }
  | .asking (range :: left) ids next =>
    { s with
      stream := (s.stream.read range.1 range.2).1, inbox := s.inbox ++ (s.stream.read range.1 range.2).2
      stage := .asking left (ids ++ [s.stream.issued]) next }
  | .asking [] ids next => s.look ids next
  | .finished _ => s

def move (s : Transfer α) : Move → Transfer α
  | .deliver => s.deliver
  | .work => s.work

def run (s : Transfer α) (moves : List Move) : Transfer α := moves.foldl move s

def result? (s : Transfer α) : Option (Except ImageError α) :=
  match s.stage with
  | .finished result => some result
  | _ => none

def start (fetch : Fetch α) (chunks : List ByteArray) : Transfer α := ⟨{}, [], chunks, .running fetch⟩

end Transfer

namespace Fetch

variable {α : Type}

-- The steps that a computation takes on complete data.
def cost (data : ByteArray) : Fetch α → Nat
  | .done _ => 1
  | .ask ranges next =>
    ranges.length + 2 + match ranges.mapM (range data) with
      | .ok parts => cost data (next parts)
      | .error _ => 0

-- The steps that are left when all parts of a group are there.
def costAfter (data : ByteArray) (ranges : List (Nat × Nat)) (next : List ByteArray → Fetch α) : Nat :=
  match ranges.mapM (range data) with
  | .ok parts => cost data (next parts)
  | .error _ => 0

theorem cost_ask (data : ByteArray) (ranges : List (Nat × Nat)) (next : List ByteArray → Fetch α) :
    cost data (.ask ranges next) = ranges.length + 2 + costAfter data ranges next := by
  rw [cost, costAfter]

theorem cost_pos (fetch : Fetch α) (data : ByteArray) : 0 < fetch.cost data := by
  cases fetch with
  | done result => exact Nat.one_pos
  | ask ranges next => rw [cost_ask]; omega

theorem range_ok_iff {data part : ByteArray} {r : Nat × Nat} :
    range data r = .ok part ↔ slice? data r.1 r.2 = some part := by
  unfold range
  cases slice? data r.1 r.2 with
  | none => simp
  | some found => simp

theorem eval_ask_of_slices {data : ByteArray} {ranges : List (Nat × Nat)} {parts : List ByteArray}
    (next : List ByteArray → Fetch α)
    (slices : List.Forall₂ (fun (r : Nat × Nat) part => slice? data r.1 r.2 = some part) ranges parts) :
    eval data (.ask ranges next) = eval data (next parts) ∧ costAfter data ranges next = cost data (next parts) := by
  have read : ranges.mapM (range data) = .ok parts := mapM_ok_iff.mpr (slices.imp fun _ _ => range_ok_iff.mpr)
  rw [eval, costAfter, read]
  exact ⟨rfl, rfl⟩

-- A computation that succeeds asks for nothing outside the data.
theorem inside_of_eval {data : ByteArray} {ranges : List (Nat × Nat)} {next : List ByteArray → Fetch α} {value : α}
    (done : eval data (.ask ranges next) = .ok value) : ∀ r ∈ ranges, r.1 + r.2 ≤ data.size := by
  rw [eval] at done
  split at done
  · next parts read =>
    intro r member
    obtain ⟨part, -, found⟩ := exists_of_forall₂_left (mapM_ok_iff.mp read) r member
    rw [range_ok_iff, slice?] at found
    split at found
    · next room => exact room
    · cases found
  · cases done

end Fetch

-- What a look at the answers says about a group of requests.
def Collected.Of (inbox : List Answer) (ids : List Nat) : Collected → Prop
  | .ready parts => List.Forall₂ (fun id part => ⟨id, .ok part⟩ ∈ inbox) ids parts
  | .failed error => ∃ id ∈ ids, ⟨id, .error error⟩ ∈ inbox
  | .incomplete => ∃ id ∈ ids, id ∉ inbox.map Answer.id

theorem Fetch.collect_of (inbox : List Answer) (ids : List Nat) : (collect inbox ids).Of inbox ids := by
  induction ids with
  | nil => exact .nil
  | cons id rest ih =>
    rw [collect]
    split
    · next missing =>
      refine ⟨id, List.mem_cons_self, ?_⟩
      intro listed
      obtain ⟨answer, member, same⟩ := List.mem_map.mp listed
      exact List.find?_eq_none.mp missing answer member (by simpa using same)
    · next other error found =>
      obtain rfl : other = id := by simpa using List.find?_some found
      exact ⟨other, List.mem_cons_self, List.mem_of_find?_eq_some found⟩
    · next other part found =>
      obtain rfl : other = id := by simpa using List.find?_some found
      have first := List.mem_of_find?_eq_some found
      cases later : collect inbox rest with
      | ready parts =>
        rw [later] at ih
        exact .cons first ih
      | failed error =>
        rw [later] at ih
        obtain ⟨id, member, failed⟩ := ih
        exact ⟨id, List.mem_cons_of_mem _ member, failed⟩
      | incomplete =>
        rw [later] at ih
        obtain ⟨id, member, missing⟩ := ih
        exact ⟨id, List.mem_cons_of_mem _ member, missing⟩

namespace Stream

-- Requests fail only at the end, and the first that fails is out of reach.
theorem answers_ok {actions : List Action}
    (inside : .finish ∈ actions → ∀ request ∈ requests 0 actions, request.stop ≤ (fed actions).size) :
    ∀ answer ∈ (run {} actions).2, ∃ bytes, answer.result = .ok bytes := by
  induction actions using List.reverseRecOn with
  | nil => intro answer member; cases member
  | append_singleton actions action ih =>
    have reached := reached_run actions
    have after := reached.step action
    obtain ⟨done, failed, moved⟩ := step_moved reached.resting action
    have before : .finish ∈ actions → ∀ request ∈ requests 0 actions, request.stop ≤ (fed actions).size := by
      intro closed request member
      have bound := inside (List.mem_append_left _ closed) request (reached.mem_requests_snoc member)
      rwa [fed_append, if_pos (isFinish_of_mem closed)] at bound
    have none : failed = [] := by
      cases failed with
      | nil => rfl
      | cons head rest =>
        obtain ⟨ended, short⟩ := moved.failing head rfl
        have issued := reached.queue_known (by rw [moved.queue]; simp : head ∈ (run {} actions).1.queueWith action)
        rw [after.ended] at ended
        rw [after.data] at short
        have bound := inside (mem_of_isFinish ended) head issued
        omega
    intro answer member
    rw [run_snoc, moved.answers_eq, none, List.map_nil, List.append_nil] at member
    rcases List.mem_append.mp member with old | new
    · exact ih before answer old
    · obtain ⟨request, -, rfl⟩ := List.mem_map.mp new
      exact ⟨_, rfl⟩

end Stream

variable {α : Type}

-- How far a computation has come that does what `fetch` does on `data`, when its stream has seen `actions`. It has at
-- most so many steps left.
def Stage.Follows (data : ByteArray) (fetch : Fetch α) (actions : List Stream.Action) (steps : Nat) : Stage α → Prop
  | .running rest => rest.eval data = fetch.eval data ∧ rest.cost data ≤ steps
  | .asking left ids next => ∃ ranges, (Fetch.ask (ranges ++ left) next).eval data = fetch.eval data ∧
      List.Forall₂ (fun id range => ⟨range.1, range.2, id⟩ ∈ Stream.requests 0 actions) ids ranges ∧
      left.length + 1 + Fetch.costAfter data (ranges ++ left) next ≤ steps
  | .finished result => ∀ value, result = .ok value ↔ fetch.eval data = .ok value

theorem Stage.Follows.mono {data : ByteArray} {fetch : Fetch α} {actions actions' : List Stream.Action}
    {steps steps' : Nat} {stage : Stage α} (follows : stage.Follows data fetch actions steps) (fewer : steps ≤ steps')
    (more : ∀ request ∈ Stream.requests 0 actions, request ∈ Stream.requests 0 actions') :
    stage.Follows data fetch actions' steps' := by
  cases stage with
  | running rest => exact ⟨follows.1, Nat.le_trans follows.2 fewer⟩
  | asking left ids next =>
    obtain ⟨ranges, same, issued, bound⟩ := follows
    exact ⟨ranges, same, issued.imp fun _ _ => more _, Nat.le_trans bound fewer⟩
  | finished result => exact follows

namespace Transfer

-- A transfer that has seen `actions` and ends as `fetch` does on `data`. Before the end of the stream, fewer than `due`
-- chunks are still to come.
structure Follows (data : ByteArray) (fetch : Fetch α) (actions : List Stream.Action) (due steps : Nat) (s : Transfer α) :
    Prop where
  history : Stream.run {} actions = (s.stream, s.inbox)
  supply : Stream.fed actions ++ joined s.left = data
  closed : s.stream.ended = true → s.left = []
  remaining : s.stream.ended = true ∨ s.left.length < due
  inside : ∀ value, fetch.eval data = .ok value → ∀ request ∈ Stream.requests 0 actions, request.stop ≤ data.size
  stage : s.stage.Follows data fetch actions steps

theorem start_follows (fetch : Fetch α) (chunks : List ByteArray) :
    (start fetch chunks).Follows (joined chunks) fetch [] (chunks.length + 1) (fetch.cost (joined chunks)) :=
  ⟨rfl, by simp [start, Stream.fed], by simp [start], .inr (Nat.lt_succ_self _), by simp [Stream.requests], rfl,
    Nat.le_refl _⟩

namespace Follows

variable {data : ByteArray} {fetch : Fetch α} {actions : List Stream.Action} {due steps : Nat} {s : Transfer α}

theorem reached (follows : s.Follows data fetch actions due steps) : Stream.Reached actions s.stream s.inbox := by
  have reached := Stream.reached_run actions
  rwa [follows.history] at reached

theorem mono {steps' : Nat} (follows : s.Follows data fetch actions due steps) (fewer : steps ≤ steps') :
    s.Follows data fetch actions due steps' :=
  { follows with stage := follows.stage.mono fewer fun _ member => member }

-- Bytes in an answer are those of the request, wherever the data ends.
theorem slice_of_answer (follows : s.Follows data fetch actions due steps) {id : Nat} {range : Nat × Nat}
    {part : ByteArray} (issued : ⟨range.1, range.2, id⟩ ∈ Stream.requests 0 actions)
    (answered : ⟨id, .ok part⟩ ∈ s.inbox) : slice? data range.1 range.2 = some part := by
  obtain ⟨request, listed, same, bytes⟩ := follows.reached.given _ answered
  obtain rfl := Stream.Reached.eq_of_id listed issued same
  rw [← follows.supply]
  exact slice?_append _ (bytes part rfl)

-- After the end of the stream nothing is missing.
theorem fed_of_ended (follows : s.Follows data fetch actions due steps) (ended : s.stream.ended = true) :
    Stream.fed actions = data := by
  have supply := follows.supply
  rwa [follows.closed ended, joined, ByteArray.append_empty] at supply

theorem eval_of_error (follows : s.Follows data fetch actions due steps) {id : Nat} {error : ImageError}
    (failed : ⟨id, .error error⟩ ∈ s.inbox) (value : α) : fetch.eval data ≠ .ok value := by
  intro done
  have inside : .finish ∈ actions → ∀ request ∈ Stream.requests 0 actions, request.stop ≤ (Stream.fed actions).size := by
    intro closed
    rw [follows.fed_of_ended (by rw [follows.reached.ended, Stream.isFinish_of_mem closed])]
    exact follows.inside value done
  have member : ⟨id, .error error⟩ ∈ (Stream.run {} actions).2 := by rwa [follows.history]
  obtain ⟨bytes, result⟩ := Stream.answers_ok inside _ member
  cases result

theorem answered_of_ended (follows : s.Follows data fetch actions due steps) (ended : s.stream.ended = true)
    {request : Request} (issued : request ∈ Stream.requests 0 actions) : request.id ∈ s.inbox.map Answer.id := by
  have reached := follows.reached
  by_contra missing
  have waiting := (reached.mem_pending_iff issued).mpr missing
  rw [reached.resting.closed ended] at waiting
  cases waiting

theorem deliver (follows : s.Follows data fetch actions due steps) :
    ∃ actions', s.deliver.Follows data fetch actions' (due - 1) steps := by
  have reached := follows.reached
  obtain ⟨stream, inbox, left, stage⟩ := s
  cases left with
  | nil =>
    obtain ⟨_, _, moved⟩ := Stream.step_moved reached.resting .finish
    have fed : Stream.fed (actions ++ [.finish]) = Stream.fed actions := (reached.fed_snoc _).trans reached.data
    have requests : Stream.requests 0 (actions ++ [.finish]) = Stream.requests 0 actions :=
      (reached.requests_snoc _).trans (List.append_nil _)
    refine ⟨actions ++ [.finish], ?_, ?_, fun _ => rfl, .inl moved.ended, ?_, ?_⟩
    · rw [Stream.run_snoc, follows.history]
      rfl
    · rw [fed]
      exact follows.supply
    · rw [requests]
      exact follows.inside
    · exact follows.stage.mono (Nat.le_refl _) fun _ => reached.mem_requests_snoc
  | cons chunk rest =>
    obtain ⟨_, _, moved⟩ := Stream.step_moved reached.resting (.feed chunk)
    have before : ¬ stream.ended = true := fun ended => List.cons_ne_nil _ _ (follows.closed ended)
    have after : ¬ (stream.feed chunk).1.ended = true := by
      have same : (stream.feed chunk).1.ended = stream.ended := moved.ended
      rwa [same]
    have requests : Stream.requests 0 (actions ++ [.feed chunk]) = Stream.requests 0 actions :=
      (reached.requests_snoc _).trans (List.append_nil _)
    refine ⟨actions ++ [.feed chunk], ?_, ?_, fun ended => absurd ended after, .inr ?_, ?_, ?_⟩
    · rw [Stream.run_snoc, follows.history]
      rfl
    · rw [reached.fed_snoc, Stream.dataWith, if_neg before, reached.data, ByteArray.append_assoc]
      exact follows.supply
    · have remaining := follows.remaining.resolve_left before
      rw [List.length_cons] at remaining
      exact Nat.lt_sub_of_add_lt remaining
    · rw [requests]
      exact follows.inside
    · exact follows.stage.mono (Nat.le_refl _) fun _ => reached.mem_requests_snoc

-- A request of a group goes out.
theorem request {stream : Stream} {inbox : List Answer} {chunks : List ByteArray} {range : Nat × Nat}
    {left : List (Nat × Nat)} {ids : List Nat} {next : List ByteArray → Fetch α}
    (follows : Follows data fetch actions due steps ⟨stream, inbox, chunks, .asking (range :: left) ids next⟩) :
    Follows data fetch (actions ++ [.read range.1 range.2]) due (steps - 1)
      (work ⟨stream, inbox, chunks, .asking (range :: left) ids next⟩) := by
  have reached := follows.reached
  obtain ⟨_, _, moved⟩ := Stream.step_moved reached.resting (.read range.1 range.2)
  have ended : (stream.read range.1 range.2).1.ended = stream.ended := moved.ended
  have requests : Stream.requests 0 (actions ++ [.read range.1 range.2]) =
      Stream.requests 0 actions ++ [⟨range.1, range.2, stream.issued⟩] := reached.requests_snoc _
  have fed : Stream.fed (actions ++ [.read range.1 range.2]) = Stream.fed actions :=
    (reached.fed_snoc _).trans reached.data
  obtain ⟨ranges, same, issued, bound⟩ := follows.stage
  refine ⟨?_, ?_, ?_, ?_, ?_, ranges ++ [range], ?_, ?_, ?_⟩
  · rw [Stream.run_snoc, follows.history]
    rfl
  · rw [fed]
    exact follows.supply
  · intro closed
    exact follows.closed (ended.symm.trans closed)
  · exact follows.remaining.imp_left ended.trans
  · intro value done request member
    rw [requests] at member
    rcases List.mem_append.mp member with old | new
    · exact follows.inside value done request old
    · obtain rfl := List.mem_singleton.mp new
      exact Fetch.inside_of_eval (same.trans done) range (by simp)
  · rw [List.append_assoc]
    exact same
  · rw [requests]
    refine List.rel_append (issued.imp fun _ _ => List.mem_append_left _) (.cons ?_ .nil)
    exact List.mem_append_right _ (List.mem_singleton.mpr rfl)
  · rw [List.append_assoc, List.singleton_append]
    rw [List.length_cons] at bound
    omega

-- A look at the answers of a group leads on, unless one is missing; at the end of the stream none is.
theorem look {ids : List Nat} {next : List ByteArray → Fetch α} (follows : s.Follows data fetch actions due steps)
    (stage : s.stage = .asking [] ids next) :
    (s.look ids next).Follows data fetch actions due (steps - 1) ∨ s.look ids next = s ∧ s.stream.ended = false := by
  have known := follows.stage
  rw [stage] at known
  obtain ⟨ranges, same, issued, bound⟩ := known
  rw [List.append_nil] at same bound
  have looked := Fetch.collect_of s.inbox ids
  unfold Transfer.look
  cases found : Fetch.collect s.inbox ids with
  | ready parts =>
    rw [found] at looked
    have slices := forall₂_join issued looked fun _ _ _ => follows.slice_of_answer
    obtain ⟨evaluated, cost⟩ := Fetch.eval_ask_of_slices next slices
    refine .inl { follows with stage := ⟨evaluated.symm.trans same, ?_⟩ }
    rw [cost, List.length_nil] at bound
    omega
  | failed error =>
    rw [found] at looked
    obtain ⟨id, -, failed⟩ := looked
    refine .inl { follows with stage := fun value => ⟨?_, ?_⟩ }
    · intro done
      cases done
    · intro done
      exact absurd done (follows.eval_of_error failed value)
  | incomplete =>
    rw [found] at looked
    obtain ⟨id, member, missing⟩ := looked
    refine .inr ⟨rfl, ?_⟩
    rw [Bool.eq_false_iff]
    intro ended
    obtain ⟨range, -, listed⟩ := exists_of_forall₂_left issued id member
    exact missing (follows.answered_of_ended ended listed)

theorem work (follows : s.Follows data fetch actions due steps) :
    (∃ actions', s.work.Follows data fetch actions' due (steps - 1)) ∨ s.work = s ∧ s.stream.ended = false := by
  obtain ⟨stream, inbox, chunks, stage⟩ := s
  cases stage with
  | running rest =>
    obtain ⟨same, bound⟩ := follows.stage
    cases rest with
    | done result =>
      refine .inl ⟨actions, { follows with stage := fun value => ?_ }⟩
      rw [← same]
      rfl
    | ask ranges next =>
      rw [Fetch.cost_ask] at bound
      refine .inl ⟨actions, { follows with stage := ⟨[], same, .nil, ?_⟩ }⟩
      rw [List.nil_append]
      omega
  | asking left ids next =>
    cases left with
    | cons range left => exact .inl ⟨_, follows.request⟩
    | nil =>
      rcases follows.look rfl with moved | waiting
      · exact .inl ⟨_, moved⟩
      · exact .inr waiting
  | finished result => exact .inl ⟨actions, { follows with stage := follows.stage }⟩

-- Whoever moves, fewer deliveries are due.
theorem run (follows : s.Follows data fetch actions due steps) (moves : List Move) :
    ∃ actions', (s.run moves).Follows data fetch actions' (due - moves.count .deliver) steps := by
  induction moves generalizing s actions due with
  | nil => exact ⟨actions, follows⟩
  | cons move rest ih =>
    cases move with
    | deliver =>
      obtain ⟨actions', next⟩ := follows.deliver
      obtain ⟨actions', done⟩ := ih next
      refine ⟨actions', ?_⟩
      rwa [List.count_cons_self, Nat.add_comm, ← Nat.sub_sub]
    | work =>
      rw [List.count_cons_of_ne (by decide)]
      rcases follows.work with ⟨actions', next⟩ | ⟨same, -⟩
      · exact ih (next.mono (Nat.sub_le _ _))
      · exact ih (s := s.work) (by rwa [same])

-- When nothing is due any more, every step of the computation brings it closer to its end.
theorem run_ended (follows : s.Follows data fetch actions 0 steps) (moves : List Move) :
    ∃ actions', (s.run moves).Follows data fetch actions' 0 (steps - moves.count .work) := by
  induction moves generalizing s actions steps with
  | nil => exact ⟨actions, follows⟩
  | cons move rest ih =>
    cases move with
    | deliver =>
      rw [List.count_cons_of_ne (by decide)]
      obtain ⟨actions', next⟩ := follows.deliver
      exact ih next
    | work =>
      rcases follows.work with ⟨actions', next⟩ | ⟨-, more⟩
      · obtain ⟨actions', done⟩ := ih next
        refine ⟨actions', ?_⟩
        rwa [List.count_cons_self, Nat.add_comm, ← Nat.sub_sub]
      · rcases follows.remaining with ended | none
        · rw [more] at ended
          cases ended
        · omega

theorem result (follows : s.Follows data fetch actions due steps) {result : Except ImageError α}
    (ended : s.result? = some result) (value : α) : result = .ok value ↔ fetch.eval data = .ok value := by
  have known := follows.stage
  unfold Transfer.result? at ended
  split at ended
  · next found stage =>
    cases ended
    rw [stage] at known
    exact known value
  · cases ended

theorem finished (follows : s.Follows data fetch actions due 0) : ∃ result, s.result? = some result := by
  have known := follows.stage
  unfold Transfer.result?
  cases stage : s.stage with
  | running rest =>
    rw [stage] at known
    have some := rest.cost_pos data
    have none := known.2
    omega
  | asking left ids next =>
    rw [stage] at known
    obtain ⟨_, _, _, bound⟩ := known
    omega
  | finished result => exact ⟨result, rfl⟩

end Follows

theorem run_append (s : Transfer α) (first second : List Move) : s.run (first ++ second) = (s.run first).run second :=
  List.foldl_append

-- In whatever order the steps are taken, success is success on the complete data, with the same value.
theorem result_exact {fetch : Fetch α} {chunks : List ByteArray} {moves : List Move} {result : Except ImageError α}
    (ended : ((start fetch chunks).run moves).result? = some result) (value : α) :
    result = .ok value ↔ fetch.eval (joined chunks) = .ok value := by
  obtain ⟨_, follows⟩ := (start_follows fetch chunks).run moves
  exact follows.result ended value

-- After the last chunk and the end of the stream, a bounded number of steps is left whatever happened before.
theorem run_finishes {fetch : Fetch α} {chunks : List ByteArray} {first second : List Move}
    (delivered : chunks.length < first.count .deliver) (enough : fetch.cost (joined chunks) ≤ second.count .work) :
    ∃ result, ((start fetch chunks).run (first ++ second)).result? = some result := by
  obtain ⟨_, before⟩ := (start_follows fetch chunks).run first
  rw [Nat.sub_eq_zero_of_le (by omega)] at before
  obtain ⟨_, after⟩ := before.run_ended second
  rw [Nat.sub_eq_zero_of_le enough, ← run_append] at after
  exact after.finished

-- A download beside the chunks that are still to come.
def ofDownload (d : Download α) (left : List ByteArray) : Transfer α :=
  { stream := d.stream, inbox := d.inbox, left,
    stage := match d.progress with
      | .finished result => .finished result
      | .waiting ids next => .asking [] ids next }

theorem result?_ofDownload (d : Download α) (left : List ByteArray) : (ofDownload d left).result? = d.result? := by
  obtain ⟨stream, inbox, progress⟩ := d
  cases progress with
  | finished result => rfl
  | waiting ids next => rfl

theorem run_issue (stream : Stream) (inbox : List Answer) (left : List ByteArray) (ranges : List (Nat × Nat))
    (ids : List Nat) (next : List ByteArray → Fetch α) :
    run ⟨stream, inbox, left, .asking ranges ids next⟩ (List.replicate ranges.length .work) =
      ⟨(Fetch.issue stream ranges).1, inbox ++ (Fetch.issue stream ranges).2.2, left,
        .asking [] (ids ++ (Fetch.issue stream ranges).2.1) next⟩ := by
  induction ranges generalizing stream inbox ids with
  | nil => simp [run, Fetch.issue]
  | cons range rest ih =>
    have first := ih (stream.read range.1 range.2).1 (inbox ++ (stream.read range.1 range.2).2) (ids ++ [stream.issued])
    rw [List.append_assoc, List.append_assoc, List.singleton_append] at first
    exact first

-- The steps that a transfer can take by itself lead it to `s'`.
def Settles (s s' : Transfer α) : Prop := (∃ n, s.run (List.replicate n .work) = s') ∧ s'.work = s'

theorem Settles.of_run {s middle s' : Transfer α} {n : Nat} (settles : middle.Settles s')
    (first : s.run (List.replicate n .work) = middle) : s.Settles s' := by
  obtain ⟨⟨more, later⟩, idle⟩ := settles
  refine ⟨⟨n + more, ?_⟩, idle⟩
  rw [List.replicate_add, run_append, first, later]

theorem run_of_idle {s : Transfer α} (idle : s.work = s) (n : Nat) : s.run (List.replicate n .work) = s := by
  induction n with
  | zero => rfl
  | succ n ih =>
    rw [List.replicate_succ]
    change s.work.run _ = s
    rw [idle, ih]

theorem poll_settles {stream : Stream} {inbox : List Answer} {left : List ByteArray} {ids : List Nat}
    {next : List ByteArray → Fetch α}
    (later : ∀ parts, Settles ⟨stream, inbox, left, .running (next parts)⟩
      (ofDownload ((next parts).advance stream inbox) left)) :
    Settles ⟨stream, inbox, left, .asking [] ids next⟩
      (ofDownload (Download.poll ⟨stream, inbox, .waiting ids next⟩) left) := by
  have looked : run ⟨stream, inbox, left, .asking [] ids next⟩ (List.replicate 1 .work) =
    look ⟨stream, inbox, left, .asking [] ids next⟩ ids next := rfl
  unfold look at looked
  unfold Download.poll
  simp only
  cases found : Fetch.collect inbox ids with
  | ready parts =>
    simp only [found] at looked
    exact (later parts).of_run looked
  | failed e =>
    simp only [found] at looked
    exact ⟨⟨1, looked⟩, rfl⟩
  | incomplete =>
    refine ⟨⟨0, rfl⟩, ?_⟩
    simp only [ofDownload, work, look, found]

theorem advance_ask (stream : Stream) (inbox : List Answer) (ranges : List (Nat × Nat)) (next : List ByteArray → Fetch α) :
    (Fetch.ask ranges next).advance stream inbox =
      Download.poll ⟨(Fetch.issue stream ranges).1, inbox ++ (Fetch.issue stream ranges).2.2,
        .waiting (Fetch.issue stream ranges).2.1 next⟩ := by
  rw [Fetch.advance]
  rfl

-- Going on as far as the answers allow is taking steps until none leads further.
theorem advance_settles (fetch : Fetch α) (stream : Stream) (inbox : List Answer) (left : List ByteArray) :
    Settles ⟨stream, inbox, left, .running fetch⟩ (ofDownload (fetch.advance stream inbox) left) := by
  induction fetch generalizing stream inbox with
  | done result => exact ⟨⟨1, rfl⟩, rfl⟩
  | ask ranges next ih =>
    have issued := run_issue stream inbox left ranges [] next
    rw [List.nil_append] at issued
    have first : run ⟨stream, inbox, left, .running (.ask ranges next)⟩ (List.replicate (1 + ranges.length) .work) =
        ⟨(Fetch.issue stream ranges).1, inbox ++ (Fetch.issue stream ranges).2.2, left,
          .asking [] (Fetch.issue stream ranges).2.1 next⟩ := by
      rw [List.replicate_add, run_append]
      exact issued
    rw [advance_ask]
    exact (poll_settles fun parts => ih parts _ _).of_run first

theorem ofDownload_settles (d : Download α) (left : List ByteArray) :
    (ofDownload d left).Settles (ofDownload d.poll left) := by
  obtain ⟨stream, inbox, progress⟩ := d
  cases progress with
  | finished result => exact ⟨⟨0, rfl⟩, rfl⟩
  | waiting ids next => exact poll_settles fun parts => advance_settles (next parts) stream inbox left

theorem run_foldl_feed (d : Download α) (chunks : List ByteArray) :
    ∃ moves, (ofDownload d chunks).run moves =
        ofDownload (chunks.foldl (fun d chunk => (d.feed chunk).poll) d) [] ∧
      moves.count .deliver = chunks.length := by
  induction chunks generalizing d with
  | nil => exact ⟨[], rfl, rfl⟩
  | cons chunk rest ih =>
    obtain ⟨⟨n, polled⟩, -⟩ := ofDownload_settles (d.feed chunk) rest
    obtain ⟨moves, fed, count⟩ := ih (d.feed chunk).poll
    refine ⟨.deliver :: (List.replicate n .work ++ moves), ?_, ?_⟩
    · rw [List.foldl_cons, ← fed, ← polled]
      exact run_append (ofDownload (d.feed chunk) rest) _ _
    · rw [List.count_cons_self, List.count_append, count, List.count_replicate]
      simp

-- Feeding all chunks with the computation going on after each is one of the orders, and it leads to the end.
theorem feedAll_exact (fetch : Fetch α) (chunks : List ByteArray) :
    ∃ result, (fetch.start.feedAll chunks).result? = some result ∧
      ∀ value, result = .ok value ↔ fetch.eval (joined chunks) = .ok value := by
  obtain ⟨⟨n, started⟩, -⟩ := advance_settles fetch {} [] chunks
  obtain ⟨moves, fed, count⟩ := run_foldl_feed fetch.start chunks
  obtain ⟨⟨m, polled⟩, idle⟩ :=
    ofDownload_settles (chunks.foldl (fun d chunk => (d.feed chunk).poll) fetch.start).finish []
  have delivered : (start fetch chunks).run (List.replicate n .work ++ moves ++ [.deliver]) =
      ofDownload (chunks.foldl (fun d chunk => (d.feed chunk).poll) fetch.start).finish [] := by
    rw [run_append, run_append, show (start fetch chunks).run _ = _ from started]
    exact congrArg deliver fed
  -- More steps than the computation needs do not lead further, so it has come to its end.
  have whole : (start fetch chunks).run (List.replicate n .work ++ moves ++ [.deliver] ++
      List.replicate (m + fetch.cost (joined chunks)) .work) = ofDownload (fetch.start.feedAll chunks) [] := by
    rw [run_append, delivered, List.replicate_add, run_append, polled]
    exact run_of_idle idle _
  have enough : chunks.length < List.count Move.deliver (List.replicate n .work ++ moves ++ [.deliver]) := by
    rw [List.count_append, List.count_append, count, List.count_singleton_self]
    omega
  obtain ⟨result, ended⟩ := @run_finishes _ fetch chunks _ (List.replicate (m + fetch.cost (joined chunks)) .work)
    enough (by rw [List.count_replicate_self]; omega)
  refine ⟨result, ?_, result_exact ended⟩
  rw [whole, result?_ofDownload] at ended
  exact ended

end Transfer
end CodeImage
