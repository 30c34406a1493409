import CodeImage.Stream
import CodeImage.Proofs.Bytes

-- One description says what every action does to the queue, and what holds of all runs follows from it.

namespace CodeImage

namespace Request

variable {a b c : Request}

theorem before_iff : a.before b = true ↔ a.offset < b.offset ∨ a.offset = b.offset ∧ a.id < b.id := by
  simp [before]

theorem before_asymm (first : a.before b = true) : ¬ b.before a = true := by
  rw [before_iff] at first ⊢
  omega

theorem before_trans (first : a.before b = true) (second : b.before c = true) : a.before c = true := by
  rw [before_iff] at first second ⊢
  omega

-- Requests of different numbers are ordered.
theorem before_of_not (other : a.id ≠ b.id) (not : ¬ a.before b = true) : b.before a = true := by
  rw [before_iff] at not ⊢
  omega

-- The queue is in the order in which requests are answered.
def Sorted (queue : List Request) : Prop := queue.Pairwise fun a b => a.before b = true

theorem enqueue_perm (request : Request) (queue : List Request) : (request.enqueue queue).Perm (request :: queue) := by
  induction queue with
  | nil => exact .refl _
  | cons head rest ih =>
    rw [enqueue]
    split
    · exact (ih.cons head).trans (.swap ..)
    · exact .refl _

theorem enqueue_sorted {request : Request} {queue : List Request} (sorted : Sorted queue)
    (fresh : ∀ other ∈ queue, other.id ≠ request.id) : Sorted (request.enqueue queue) := by
  induction queue with
  | nil => exact List.pairwise_singleton ..
  | cons head rest ih =>
    obtain ⟨first, later⟩ := List.pairwise_cons.mp sorted
    obtain ⟨headFresh, restFresh⟩ := List.forall_mem_cons.mp fresh
    rw [enqueue]
    split
    · next earlier =>
      refine List.pairwise_cons.mpr ⟨?_, ih later restFresh⟩
      intro other member
      rcases List.mem_cons.mp ((enqueue_perm request rest).mem_iff.mp member) with rfl | old
      · exact earlier
      · exact first other old
    · next not =>
      have next := before_of_not headFresh not
      refine List.pairwise_cons.mpr ⟨?_, sorted⟩
      intro other member
      rcases List.mem_cons.mp member with rfl | old
      · exact next
      · exact before_trans next (first other old)

end Request

namespace Stream

-- The answer to a request whose range has arrived.
def arrived (data : ByteArray) (request : Request) : Answer :=
  ⟨request.id, .ok (data.extract request.offset request.stop)⟩

theorem ready_spec (data : ByteArray) (queue : List Request) :
    ∃ done, queue = done ++ (ready data queue).2 ∧ (ready data queue).1 = done.map (arrived data) ∧
      (∀ request ∈ done, request.stop ≤ data.size) ∧
      ∀ head ∈ (ready data queue).2.head?, data.size < head.stop := by
  induction queue with
  | nil => exact ⟨[], rfl, rfl, by simp, by simp [ready]⟩
  | cons head rest ih =>
    rw [ready]
    split
    · next complete =>
      obtain ⟨done, split, answers, inside, waiting⟩ := ih
      refine ⟨head :: done, congrArg (head :: ·) split, congrArg (arrived data head :: ·) answers, ?_, waiting⟩
      exact List.forall_mem_cons.mpr ⟨complete, inside⟩
    · next short =>
      exact ⟨[], rfl, rfl, by simp, by simpa using short⟩

theorem dispatch_eq (s : Stream) :
    s.dispatch = ({ s with pending := (ready s.data s.pending).2 }, (ready s.data s.pending).1) := rfl

-- The requests that an action issues, the data and the end of the stream after it.
def newRequests (s : Stream) : Action → List Request
  | .read offset len => [⟨offset, len, s.issued⟩]
  | _ => []

def queueWith (s : Stream) : Action → List Request
  | .read offset len => Request.enqueue ⟨offset, len, s.issued⟩ s.pending
  | _ => s.pending

def dataWith (s : Stream) : Action → ByteArray
  | .feed chunk => if s.ended then s.data else s.data ++ chunk
  | _ => s.data

def endedWith (s : Stream) : Action → Bool
  | .finish => true
  | _ => s.ended

-- Between actions: a request that waits first is incomplete, and none waits after the end.
structure Resting (s : Stream) : Prop where
  waiting : ∀ head ∈ s.pending.head?, s.data.size < head.stop
  closed : s.ended = true → s.pending = []

-- What an action does: it answers `done`, fails `failed` and leaves the rest of the queue.
structure Moved (s : Stream) (action : Action) (done failed : List Request) (s' : Stream) (answers : List Answer) :
    Prop where
  queue : s.queueWith action = done ++ failed ++ s'.pending
  data : s'.data = s.dataWith action
  ended : s'.ended = s.endedWith action
  issued : s'.issued = s.issued + (s.newRequests action).length
  answers_eq : answers = done.map (arrived s'.data) ++ failed.map (endedError s'.data.size)
  complete : ∀ request ∈ done, request.stop ≤ s'.data.size
  failing : ∀ head ∈ failed.head?, s'.ended = true ∧ s'.data.size < head.stop
  resting : s'.Resting

theorem step_moved {s : Stream} (resting : s.Resting) (action : Action) :
    ∃ done failed, s.Moved action done failed (s.step action).1 (s.step action).2 := by
  cases action with
  | read offset len =>
    by_cases late : s.ended = true ∧ s.data.size < offset + len
    · have step : s.step (.read offset len) =
          ({ s with issued := s.issued + 1 }, [endedError s.data.size ⟨offset, len, s.issued⟩]) := by
        simp [step, read, late, Request.stop]
      have empty := resting.closed late.1
      rw [step]
      refine ⟨[], [⟨offset, len, s.issued⟩], ?_, rfl, rfl, rfl, rfl, by simp, ?_, resting.waiting, resting.closed⟩
      · simp [queueWith, empty, Request.enqueue]
      · simpa [Request.stop] using late
    · have step : s.step (.read offset len) =
          ({ s with pending := Request.enqueue ⟨offset, len, s.issued⟩ s.pending, issued := s.issued + 1 }).dispatch := by
        rw [Stream.step, Stream.read, if_neg]
        rw [Bool.and_eq_true, decide_eq_true_eq]
        exact late
      obtain ⟨done, split, answers, inside, waiting⟩ := ready_spec s.data (Request.enqueue ⟨offset, len, s.issued⟩ s.pending)
      rw [step, dispatch_eq]
      refine ⟨done, [], ?_, rfl, rfl, rfl, ?_, inside, by simp, waiting, ?_⟩
      · simpa [queueWith] using split
      · simpa using answers
      -- After the end the queue was empty, and the new request is within reach.
      · intro ended
        simp only at ended ⊢
        rw [resting.closed ended] at split waiting ⊢
        cases left : (ready s.data (Request.enqueue ⟨offset, len, s.issued⟩ [])).2 with
        | nil => rfl
        | cons head rest =>
          rw [left] at split waiting
          have member : head ∈ Request.enqueue ⟨offset, len, s.issued⟩ [] := by rw [split]; simp
          obtain rfl : head = ⟨offset, len, s.issued⟩ := by simpa [Request.enqueue] using member
          exact absurd ⟨ended, waiting _ rfl⟩ late
  | feed chunk =>
    by_cases ended : s.ended = true
    · have step : s.step (.feed chunk) = (s, []) := by simp [step, feed, ended]
      rw [step]
      refine ⟨[], [], ?_, ?_, rfl, rfl, rfl, by simp, by simp, resting⟩
      · simp [queueWith]
      · simp [dataWith, ended]
    · have step : s.step (.feed chunk) = ({ s with data := s.data ++ chunk }).dispatch := by simp [step, feed, ended]
      obtain ⟨done, split, answers, inside, waiting⟩ := ready_spec (s.data ++ chunk) s.pending
      rw [step, dispatch_eq]
      refine ⟨done, [], ?_, ?_, rfl, rfl, ?_, inside, by simp, waiting, ?_⟩
      · simpa [queueWith] using split
      · simp [dataWith, ended]
      · simpa using answers
      · intro now
        exact absurd now ended
  | finish =>
    obtain ⟨done, split, answers, inside, waiting⟩ := ready_spec s.data s.pending
    refine ⟨done, (ready s.data s.pending).2, ?_, rfl, rfl, rfl, ?_, inside, ?_, ?_, ?_⟩
    · simpa [queueWith, step, finish, dispatch] using split
    · simp [step, finish, dispatch, answers]
    · intro head first
      exact ⟨rfl, waiting head first⟩
    · simp [step, finish]
    · intro _
      rfl

theorem run_cons (s : Stream) (action : Action) (rest : List Action) :
    s.run (action :: rest) = (((s.step action).1.run rest).1, (s.step action).2 ++ ((s.step action).1.run rest).2) := rfl

theorem run_append (s : Stream) (first second : List Action) :
    s.run (first ++ second) =
      (((s.run first).1.run second).1, (s.run first).2 ++ ((s.run first).1.run second).2) := by
  induction first generalizing s with
  | nil => rfl
  | cons action rest ih =>
    rw [List.cons_append, run_cons, ih, run_cons]
    simp

theorem run_snoc (s : Stream) (actions : List Action) (action : Action) :
    s.run (actions ++ [action]) =
      (((s.run actions).1.step action).1, (s.run actions).2 ++ ((s.run actions).1.step action).2) := by
  rw [run_append]
  simp [run]

-- The requests that actions issue, numbered from `id` on.
def requests (id : Nat) : List Action → List Request
  | [] => []
  | .read offset len :: rest => ⟨offset, len, id⟩ :: requests (id + 1) rest
  | _ :: rest => requests id rest

def Action.isFinish : Action → Bool
  | .finish => true
  | _ => false

-- The chunks that are fed before the end of the stream, one after the other.
def fed : List Action → ByteArray
  | [] => ByteArray.empty
  | .feed chunk :: rest => chunk ++ fed rest
  | .finish :: _ => ByteArray.empty
  | .read _ _ :: rest => fed rest

theorem requests_append (id : Nat) (first second : List Action) :
    requests id (first ++ second) = requests id first ++ requests (id + (requests id first).length) second := by
  induction first generalizing id with
  | nil => rfl
  | cons action rest ih =>
    cases action with
    | read offset len =>
      rw [List.cons_append, requests, requests, ih, List.length_cons, List.cons_append]
      congr 3
      omega
    | feed chunk => exact ih id
    | finish => exact ih id

theorem map_id_requests (id : Nat) (actions : List Action) :
    (requests id actions).map Request.id = List.range' id (requests id actions).length := by
  induction actions generalizing id with
  | nil => rfl
  | cons action rest ih =>
    cases action with
    | read offset len => rw [requests, List.map_cons, ih, List.length_cons, List.range'_succ]
    | feed chunk => exact ih id
    | finish => exact ih id

theorem fed_append (first second : List Action) :
    fed (first ++ second) = if first.any Action.isFinish then fed first else fed first ++ fed second := by
  induction first with
  | nil => simp [fed]
  | cons action rest ih =>
    cases action with
    | read offset len => simpa [fed, Action.isFinish] using ih
    | feed chunk =>
      rw [List.cons_append, fed, ih, fed]
      split
      · next closed => rw [if_pos (by simpa [Action.isFinish] using closed)]
      · next more => rw [if_neg (by simpa [Action.isFinish] using more), ByteArray.append_assoc]
    | finish => simp [fed, Action.isFinish]

-- What is known of a stream after a run of actions, and of the answers that the run gave.
structure Reached (actions : List Action) (s : Stream) (answers : List Answer) : Prop where
  data : s.data = fed actions
  ended : s.ended = actions.any Action.isFinish
  issued : s.issued = (requests 0 actions).length
  sorted : Request.Sorted s.pending
  known : ∀ request ∈ s.pending, request ∈ requests 0 actions
  resting : s.Resting
  account : (answers.map Answer.id ++ s.pending.map Request.id).Perm ((requests 0 actions).map Request.id)
  given : ∀ answer ∈ answers, ∃ request ∈ requests 0 actions, request.id = answer.id ∧
    ∀ bytes, answer.result = .ok bytes → slice? (fed actions) request.offset request.len = some bytes

theorem initial_reached : Reached [] {} [] :=
  ⟨rfl, rfl, rfl, .nil, by simp, ⟨by simp, fun _ => rfl⟩, .refl _, by simp⟩

theorem queueWith_perm (s : Stream) (action : Action) :
    (s.queueWith action).Perm (s.newRequests action ++ s.pending) := by
  cases action with
  | read offset len => exact Request.enqueue_perm _ _
  | feed chunk => exact .refl _
  | finish => exact .refl _

namespace Reached

variable {actions : List Action} {s : Stream} {answers : List Answer}

theorem requests_snoc (reached : Reached actions s answers) (action : Action) :
    requests 0 (actions ++ [action]) = requests 0 actions ++ s.newRequests action := by
  rw [requests_append, Nat.zero_add, ← reached.issued]
  cases action <;> rfl

theorem mem_requests_snoc (reached : Reached actions s answers) {action : Action} {request : Request}
    (member : request ∈ requests 0 actions) : request ∈ requests 0 (actions ++ [action]) := by
  rw [reached.requests_snoc]
  exact List.mem_append_left _ member

theorem fed_snoc (reached : Reached actions s answers) (action : Action) :
    fed (actions ++ [action]) = s.dataWith action := by
  rw [fed_append, ← reached.ended, ← reached.data]
  cases action with
  | read offset len => simp [fed, dataWith]
  | feed chunk => simp [fed, dataWith]
  | finish => simp [fed, dataWith]

theorem id_lt (reached : Reached actions s answers) {request : Request} (member : request ∈ requests 0 actions) :
    request.id < s.issued := by
  have listed := List.mem_map_of_mem (f := Request.id) member
  rw [map_id_requests, List.mem_range'_1] at listed
  rw [reached.issued]
  omega

theorem queue_sorted (reached : Reached actions s answers) (action : Action) : Request.Sorted (s.queueWith action) := by
  cases action with
  | read offset len =>
    apply Request.enqueue_sorted reached.sorted
    intro other member
    have small := reached.id_lt (reached.known other member)
    simp only
    omega
  | feed chunk => exact reached.sorted
  | finish => exact reached.sorted

-- The queue holds what was pending and what is new, so every request in it was issued.
theorem queue_known (reached : Reached actions s answers) {action : Action} {request : Request}
    (member : request ∈ s.queueWith action) : request ∈ requests 0 (actions ++ [action]) := by
  rw [reached.requests_snoc]
  rcases List.mem_append.mp ((s.queueWith_perm action).mem_iff.mp member) with new | old
  · exact List.mem_append_right _ new
  · exact List.mem_append_left _ (reached.known request old)

-- Everything issued is answered or in the queue.
theorem queue_account (reached : Reached actions s answers) (action : Action) :
    (answers.map Answer.id ++ (s.queueWith action).map Request.id).Perm
      ((requests 0 (actions ++ [action])).map Request.id) := by
  rw [reached.requests_snoc, List.map_append]
  have moved := ((s.queueWith_perm action).trans List.perm_append_comm).map Request.id
  have all := moved.append_left (answers.map Answer.id)
  rw [List.map_append, ← List.append_assoc] at all
  exact all.trans (reached.account.append_right _)

theorem map_id_answers {s' : Stream} {action : Action} {done failed : List Request} {given : List Answer}
    (moved : s.Moved action done failed s' given) : given.map Answer.id = (done ++ failed).map Request.id := by
  rw [moved.answers_eq, List.map_append, List.map_append, List.map_map, List.map_map]
  rfl

-- Data that has arrived stays where it is.
theorem slice?_dataWith {action : Action} {start len : Nat} {part : ByteArray}
    (found : slice? s.data start len = some part) : slice? (s.dataWith action) start len = some part := by
  cases action with
  | feed chunk =>
    by_cases ended : s.ended = true
    · rwa [dataWith, if_pos ended]
    · rw [dataWith, if_neg ended]
      exact slice?_append chunk found
  | read offset len => exact found
  | finish => exact found

theorem step (reached : Reached actions s answers) (action : Action) :
    Reached (actions ++ [action]) (s.step action).1 (answers ++ (s.step action).2) := by
  obtain ⟨done, failed, moved⟩ := step_moved reached.resting action
  generalize (s.step action).1 = s', (s.step action).2 = given at moved
  have data : s'.data = fed (actions ++ [action]) := by rw [moved.data, reached.fed_snoc]
  have inQueue : ∀ request, request ∈ done ++ failed ++ s'.pending → request ∈ requests 0 (actions ++ [action]) := by
    intro request member
    rw [← moved.queue] at member
    exact reached.queue_known member
  refine ⟨data, ?_, ?_, ?_, ?_, moved.resting, ?_, ?_⟩
  · rw [moved.ended, List.any_append, ← reached.ended]
    cases action <;> simp [endedWith, Action.isFinish]
  · rw [moved.issued, reached.issued, reached.requests_snoc, List.length_append]
  · have sorted := reached.queue_sorted action
    rw [moved.queue] at sorted
    exact (List.pairwise_append.mp sorted).2.1
  · intro request member
    exact inQueue request (List.mem_append_right _ member)
  · have account := reached.queue_account action
    rwa [moved.queue, List.map_append, ← map_id_answers moved, ← List.append_assoc, ← List.map_append] at account
  · intro answer member
    rcases List.mem_append.mp member with old | new
    · obtain ⟨request, listed, id, bytes⟩ := reached.given answer old
      refine ⟨request, ?_, id, ?_⟩
      · exact reached.mem_requests_snoc listed
      · intro part result
        have found := bytes part result
        rw [← reached.data] at found
        rw [reached.fed_snoc]
        exact slice?_dataWith found
    · rw [moved.answers_eq] at new
      rcases List.mem_append.mp new with answered | refused
      · obtain ⟨request, listed, rfl⟩ := List.mem_map.mp answered
        refine ⟨request, inQueue request (by simp [listed]), rfl, ?_⟩
        intro part result
        cases result
        have room : request.offset + request.len ≤ s'.data.size := moved.complete request listed
        rw [← data, slice?, if_pos room]
        rfl
      · obtain ⟨request, listed, rfl⟩ := List.mem_map.mp refused
        refine ⟨request, inQueue request (by simp [listed]), rfl, ?_⟩
        intro part result
        cases result

theorem nodup_ids (actions : List Action) : ((requests 0 actions).map Request.id).Nodup := by
  rw [map_id_requests]
  exact List.nodup_range'

theorem eq_of_id {a b : Request} (left : a ∈ requests 0 actions) (right : b ∈ requests 0 actions) (same : a.id = b.id) :
    a = b :=
  List.inj_on_of_nodup_map (nodup_ids actions) left right same

theorem nodup_account (reached : Reached actions s answers) :
    (answers.map Answer.id ++ s.pending.map Request.id).Nodup :=
  reached.account.nodup_iff.mpr (nodup_ids actions)

-- The queue holds exactly the requests without an answer.
theorem mem_pending_iff (reached : Reached actions s answers) {request : Request} (issued : request ∈ requests 0 actions) :
    request ∈ s.pending ↔ request.id ∉ answers.map Answer.id := by
  constructor
  · intro member answered
    exact (List.nodup_append.mp reached.nodup_account).2.2 _ answered _ (List.mem_map_of_mem member) rfl
  · intro unanswered
    have listed := reached.account.mem_iff.mpr (List.mem_map_of_mem issued)
    obtain ⟨other, member, same⟩ := List.mem_map.mp ((List.mem_append.mp listed).resolve_left unanswered)
    rwa [← eq_of_id (reached.known other member) issued same]

theorem queue_least (reached : Reached actions s answers) :
    s.pending = [] ∨ ∃ head rest, s.pending = head :: rest ∧ (∀ other ∈ rest, head.before other = true) ∧
      (fed actions).size < head.stop := by
  have sorted := reached.sorted
  have waiting := reached.resting.waiting
  rw [reached.data] at waiting
  cases queue : s.pending with
  | nil => exact .inl rfl
  | cons head rest =>
    rw [queue] at sorted waiting
    exact .inr ⟨head, rest, rfl, (List.pairwise_cons.mp sorted).1, waiting head rfl⟩

-- An answer that succeeds stands before those of all requests that are left.
theorem ok_split {s' : Stream} {action : Action} {done failed : List Request} {given before after : List Answer}
    {answer : Answer} {bytes : ByteArray} (moved : s.Moved action done failed s' given)
    (split : given = before ++ answer :: after) (result : answer.result = .ok bytes) :
    ∃ earlier request later, done = earlier ++ request :: later ∧ before = earlier.map (arrived s'.data) ∧
      answer = arrived s'.data request := by
  have refused : answer ∉ failed.map (endedError s'.data.size) := by
    intro member
    obtain ⟨request, -, rfl⟩ := List.mem_map.mp member
    cases result
  rw [moved.answers_eq, List.append_eq_append_iff] at split
  rcases split with ⟨middle, -, rest⟩ | ⟨middle, front, rest⟩
  · exact absurd (by rw [rest]; simp) refused
  · cases middle with
    | nil => exact absurd (by rw [← List.nil_append (failed.map _), ← rest]; simp) refused
    | cons first middle =>
      obtain ⟨rfl, -⟩ := List.cons.inj rest
      obtain ⟨earlier, others, rfl, rfl, tail⟩ := List.map_eq_append_iff.mp front
      obtain ⟨request, later, rfl, rfl, -⟩ := List.map_eq_cons_iff.mp tail
      exact ⟨earlier, request, later, rfl, rfl, rfl⟩

theorem ok_in_order (reached : Reached actions s answers) {action : Action} {before after : List Answer} {answer : Answer}
    {bytes : ByteArray} (split : (s.step action).2 = before ++ answer :: after) (result : answer.result = .ok bytes) :
    ∃ request ∈ requests 0 (actions ++ [action]), request.id = answer.id ∧
      slice? (fed (actions ++ [action])) request.offset request.len = some bytes ∧
      ∀ other ∈ requests 0 (actions ++ [action]), other.id ∉ (answers ++ before ++ [answer]).map Answer.id →
        ¬ other.before request = true := by
  obtain ⟨done, failed, moved⟩ := step_moved reached.resting action
  have data : (s.step action).1.data = fed (actions ++ [action]) := by rw [moved.data, reached.fed_snoc]
  obtain ⟨earlier, request, later, rfl, rfl, rfl⟩ := ok_split moved split result
  have shape : s.queueWith action = earlier ++ request :: (later ++ failed ++ (s.step action).1.pending) := by
    rw [moved.queue]
    simp
  have sorted := reached.queue_sorted action
  have complete : request.offset + request.len ≤ (s.step action).1.data.size := moved.complete request (by simp)
  refine ⟨request, reached.queue_known (by rw [shape]; simp), rfl, ?_, ?_⟩
  · cases result
    rw [← data, slice?, if_pos complete]
    rfl
  · intro other issued unanswered
    have listed := (reached.queue_account action).mem_iff.mpr (List.mem_map_of_mem issued)
    simp only [List.map_append, List.mem_append, not_or] at unanswered
    obtain ⟨waiting, member, same⟩ := List.mem_map.mp ((List.mem_append.mp listed).resolve_left unanswered.1.1)
    obtain rfl := eq_of_id (reached.queue_known member) issued same
    rw [shape] at member sorted
    obtain ⟨first, -⟩ := List.pairwise_cons.mp (List.pairwise_append.mp sorted).2.1
    rcases List.mem_append.mp member with old | rest
    · exact absurd (List.mem_map_of_mem (List.mem_map_of_mem old)) unanswered.1.2
    · rcases List.mem_cons.mp rest with rfl | behind
      · exact absurd (by simp [arrived]) unanswered.2
      · exact Request.before_asymm (first waiting behind)

end Reached

theorem reached_run (actions : List Action) : Reached actions (run {} actions).1 (run {} actions).2 := by
  induction actions using List.reverseRecOn with
  | nil => exact initial_reached
  | append_singleton actions action ih =>
    rw [run_snoc]
    exact ih.step action

theorem isFinish_of_mem {actions : List Action} (closed : .finish ∈ actions) : actions.any Action.isFinish = true :=
  List.any_eq_true.mpr ⟨.finish, closed, rfl⟩

theorem mem_of_isFinish {actions : List Action} (closed : actions.any Action.isFinish = true) : .finish ∈ actions := by
  obtain ⟨action, member, ends⟩ := List.any_eq_true.mp closed
  cases action with
  | finish => exact member
  | read offset len => cases ends
  | feed chunk => cases ends

-- After the end of the stream a chunk is left out.
theorem run_late_feed {actions : List Action} (closed : .finish ∈ actions) (chunk : ByteArray) (rest : List Action) :
    run {} (actions ++ .feed chunk :: rest) = run {} (actions ++ rest) := by
  have ended : (run {} actions).1.ended = true := by rw [(reached_run actions).ended, isFinish_of_mem closed]
  have skip : (run {} actions).1.step (.feed chunk) = ((run {} actions).1, []) := by simp [step, feed, ended]
  rw [run_append, run_append, run_cons, skip]
  rfl

theorem count_answers {actions : List Action} (closed : .finish ∈ actions) {request : Request}
    (issued : request ∈ requests 0 actions) : ((run {} actions).2.map Answer.id).count request.id = 1 := by
  have reached := reached_run actions
  have empty := reached.resting.closed (by rw [reached.ended, isFinish_of_mem closed])
  have account := reached.account
  rw [empty, List.map_nil, List.append_nil] at account
  rw [account.count_eq]
  exact List.count_eq_one_of_mem (Reached.nodup_ids actions) (List.mem_map_of_mem issued)

-- Whatever is asked, fed and ended in whatever order.
theorem request_safety (actions : List Action) :
    -- Every request is answered at most once, and success means the bytes of its range.
    ((run {} actions).2.map Answer.id).Nodup ∧
    (∀ answer ∈ (run {} actions).2, ∃ request ∈ requests 0 actions, request.id = answer.id ∧
      ∀ bytes, answer.result = .ok bytes → slice? (fed actions) request.offset request.len = some bytes) ∧
    -- When the next action answers a request with success, its bytes have arrived and no request before it is left.
    (∀ action before answer after bytes, ((run {} actions).1.step action).2 = before ++ answer :: after →
      answer.result = .ok bytes → ∃ request ∈ requests 0 (actions ++ [action]), request.id = answer.id ∧
        slice? (fed (actions ++ [action])) request.offset request.len = some bytes ∧
        ∀ other ∈ requests 0 (actions ++ [action]), other.id ∉ ((run {} actions).2 ++ before ++ [answer]).map Answer.id →
          ¬ other.before request = true) ∧
    -- The queue holds the requests without an answer, and the least of them is incomplete.
    (∀ request ∈ requests 0 actions, request ∈ (run {} actions).1.pending ↔
      request.id ∉ (run {} actions).2.map Answer.id) ∧
    ((run {} actions).1.pending = [] ∨ ∃ head rest, (run {} actions).1.pending = head :: rest ∧
      (∀ other ∈ rest, head.before other = true) ∧ (fed actions).size < head.stop) ∧
    -- At the end every request has its answer, and what is fed later changes nothing.
    (.finish ∈ actions → (run {} actions).1.pending = [] ∧
      (∀ request ∈ requests 0 actions, ((run {} actions).2.map Answer.id).count request.id = 1) ∧
      ∀ chunk rest, run {} (actions ++ .feed chunk :: rest) = run {} (actions ++ rest)) := by
  have reached := reached_run actions
  refine ⟨(List.nodup_append.mp reached.nodup_account).1, reached.given, ?_, ?_, reached.queue_least, ?_⟩
  · intro action before answer after bytes split result
    exact reached.ok_in_order split result
  · intro request issued
    exact reached.mem_pending_iff issued
  · intro closed
    refine ⟨reached.resting.closed ?_, ?_, run_late_feed closed⟩
    · rw [reached.ended, isFinish_of_mem closed]
    · intro request issued
      exact count_answers closed issued

-- The second request is answered first. The first one is never complete, and the third comes after the end.
theorem request_safety_three :
    (∃ request ∈ requests 0 [.read 2 2, .read 0 1, .feed ⟨#[7, 8, 9]⟩], request.id = 1 ∧
      slice? ⟨#[7, 8, 9]⟩ request.offset request.len = some ⟨#[7]⟩) ∧
    (∀ request ∈ requests 0 [.read 2 2, .read 0 1, .feed ⟨#[7, 8, 9]⟩, .finish, .read 1 1],
      ((run {} [.read 2 2, .read 0 1, .feed ⟨#[7, 8, 9]⟩, .finish, .read 1 1]).2.map Answer.id).count request.id = 1) := by
  constructor
  · obtain ⟨request, issued, id, bytes, -⟩ := (request_safety [.read 2 2, .read 0 1]).2.2.1 (.feed ⟨#[7, 8, 9]⟩) []
      ⟨1, .ok ⟨#[7]⟩⟩ [] ⟨#[7]⟩ rfl rfl
    exact ⟨request, issued, id, bytes⟩
  · exact ((request_safety [.read 2 2, .read 0 1, .feed ⟨#[7, 8, 9]⟩, .finish, .read 1 1]).2.2.2.2.2 (by simp)).2.1

end Stream
end CodeImage
