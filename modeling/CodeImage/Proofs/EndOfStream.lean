import CodeImage.Proofs.Interleaving

-- A request may fail although its own range has arrived, if it waits behind one whose range has not.

namespace CodeImage

namespace Stream

-- The actions before the end of the stream.
def untilEnd (actions : List Action) : List Action := actions.takeWhile fun action => !action.isFinish

-- The requests that wait when the stream ends.
def waiting (actions : List Action) : List Request := (run {} (untilEnd actions)).1.pending

-- The range of a request never arrived, or the request waits behind one whose range never did.
def Missed (actions : List Action) (request : Request) : Prop :=
  (fed actions).size < request.stop ∨
    request ∈ waiting actions ∧ ∃ other ∈ waiting actions, other.before request = true ∧ (fed actions).size < other.stop

instance (actions : List Action) (request : Request) : Decidable (Missed actions request) :=
  inferInstanceAs (Decidable (_ ∨ _ ∧ ∃ other ∈ waiting actions, _))

theorem split_at_end {actions : List Action} (closed : .finish ∈ actions) :
    ∃ after, actions = untilEnd actions ++ .finish :: after := by
  induction actions with
  | nil => cases closed
  | cons action rest ih =>
    cases action with
    | finish => exact ⟨rest, rfl⟩
    | read offset len =>
      obtain ⟨after, split⟩ := ih (by simpa using closed)
      exact ⟨after, congrArg (_ :: ·) split⟩
    | feed chunk =>
      obtain ⟨after, split⟩ := ih (by simpa using closed)
      exact ⟨after, congrArg (_ :: ·) split⟩

theorem open_untilEnd (actions : List Action) : .finish ∉ untilEnd actions := by
  intro member
  have before := List.all_eq_true.mp List.all_takeWhile _ member
  cases before

theorem fed_untilEnd {actions : List Action} (closed : .finish ∈ actions) : fed actions = fed (untilEnd actions) := by
  obtain ⟨after, split⟩ := split_at_end closed
  have still : ¬ (untilEnd actions).any Action.isFinish = true := fun ended =>
    open_untilEnd actions (mem_of_isFinish ended)
  have whole := fed_append (untilEnd actions) (.finish :: after)
  rw [← split, if_neg still] at whole
  simpa [fed] using whole

-- The first request that waits is incomplete, so the end of the stream completes none.
theorem step_finish {s : Stream} (resting : s.Resting) :
    s.step .finish = ({ s with ended := true, pending := [] }, s.pending.map (endedError s.data.size)) := by
  obtain ⟨data, ended, pending, issued⟩ := s
  cases pending with
  | nil => rfl
  | cons head rest =>
    have short : ¬ head.stop ≤ data.size := Nat.not_le.mpr (resting.waiting head rfl)
    simp [step, finish, dispatch, ready, short]

-- The answer to a request after the end.
def closedAnswer (data : ByteArray) (request : Request) : Answer :=
  if data.size < request.stop then endedError data.size request else arrived data request

theorem step_read_closed {s : Stream} (ended : s.ended = true) (none : s.pending = []) (offset len : Nat) :
    s.step (.read offset len) =
      ({ s with issued := s.issued + 1 }, [closedAnswer s.data ⟨offset, len, s.issued⟩]) := by
  obtain ⟨data, ended', pending, issued⟩ := s
  cases none
  cases ended
  by_cases short : data.size < offset + len
  · simp [step, read, closedAnswer, Request.stop, short]
  · simp [step, read, closedAnswer, Request.stop, Request.enqueue, dispatch, ready, arrived, short, Nat.le_of_not_lt short]

-- After the end nothing waits, so every request has its answer at once.
theorem run_closed {s : Stream} (ended : s.ended = true) (none : s.pending = []) (actions : List Action) :
    (s.run actions).2 = (requests s.issued actions).map (closedAnswer s.data) := by
  induction actions generalizing s with
  | nil => rfl
  | cons action rest ih =>
    cases action with
    | read offset len =>
      rw [run_cons, step_read_closed ended none]
      exact congrArg (_ :: ·) (ih ended none)
    | feed chunk =>
      have skip : s.step (.feed chunk) = (s, []) := by simp [step, feed, ended]
      rw [run_cons, skip]
      exact ih ended none
    | finish =>
      have again : s.step .finish = (s, []) := by
        obtain ⟨data, ended', pending, issued⟩ := s
        cases none
        cases ended
        rfl
      rw [run_cons, again]
      exact ih ended none

section AtEnd

variable {actions : List Action} {request : Request}

-- Answers before the end, failures at the end, and answers after it.
theorem answers_at_end (closed : .finish ∈ actions) :
    ∃ after, actions = untilEnd actions ++ .finish :: after ∧
      (run {} actions).2 = (run {} (untilEnd actions)).2 ++ ((waiting actions).map (endedError (fed actions).size) ++
        (requests (requests 0 (untilEnd actions)).length after).map (closedAnswer (fed actions))) := by
  obtain ⟨after, split⟩ := split_at_end closed
  have reached := reached_run (untilEnd actions)
  refine ⟨after, split, ?_⟩
  have answers : (run {} actions).2 = (run {} (untilEnd actions ++ .finish :: after)).2 := by rw [← split]
  rw [answers, run_append, run_cons, step_finish reached.resting, run_closed rfl rfl]
  simp only [waiting, reached.data, reached.issued, ← fed_untilEnd closed]

theorem missed_of_waiting (closed : .finish ∈ actions) (waits : request ∈ waiting actions) : Missed actions request := by
  rcases (reached_run (untilEnd actions)).queue_least with none | ⟨head, rest, queue, first, short⟩
  · rw [waiting, none] at waits
    cases waits
  · rw [← fed_untilEnd closed] at short
    rw [← waiting] at queue
    have listed := waits
    rw [queue] at listed
    rcases List.mem_cons.mp listed with rfl | behind
    · exact .inl short
    · exact .inr ⟨waits, head, by rw [queue]; exact List.mem_cons_self, first request behind, short⟩

theorem missed_iff_of_not_waiting (free : request ∉ waiting actions) :
    Missed actions request ↔ (fed actions).size < request.stop := by
  simp [Missed, free]

-- A request that was answered before the end got its bytes.
theorem arrived_before_end (closed : .finish ∈ actions) (issued : request ∈ requests 0 (untilEnd actions))
    (free : request ∉ waiting actions) :
    request.stop ≤ (fed actions).size ∧ arrived (fed actions) request ∈ (run {} (untilEnd actions)).2 := by
  have reached := reached_run (untilEnd actions)
  have answered : request.id ∈ (run {} (untilEnd actions)).2.map Answer.id := by
    by_contra missing
    exact free ((reached.mem_pending_iff issued).mpr missing)
  obtain ⟨answer, member, same⟩ := List.mem_map.mp answered
  obtain ⟨bytes, result⟩ := answers_ok (fun ended => absurd ended (open_untilEnd actions)) answer member
  obtain ⟨other, listed, named, found⟩ := reached.given answer member
  obtain rfl := Reached.eq_of_id listed issued (named.trans same)
  have part := found bytes result
  rw [← fed_untilEnd closed, slice?] at part
  split at part
  · next room =>
    cases part
    refine ⟨room, ?_⟩
    have self : arrived (fed actions) other = answer := by
      obtain ⟨id, content⟩ := answer
      cases result
      cases same
      rfl
    rwa [self]
  · cases part

-- The number of a request that comes after the end is larger than those of all that wait.
theorem not_waiting_of_later {after : List Action}
    (issued : request ∈ requests (requests 0 (untilEnd actions)).length after) : request ∉ waiting actions := by
  intro waits
  have reached := reached_run (untilEnd actions)
  have early := reached.id_lt (reached.known request waits)
  rw [reached.issued] at early
  have listed := List.mem_map_of_mem (f := Request.id) issued
  rw [map_id_requests, List.mem_range'_1] at listed
  omega

theorem answer_mem (closed : .finish ∈ actions) (issued : request ∈ requests 0 actions) :
    (if Missed actions request then endedError (fed actions).size request else arrived (fed actions) request) ∈
      (run {} actions).2 := by
  obtain ⟨after, split, answers⟩ := answers_at_end closed
  rw [answers, List.mem_append, List.mem_append]
  rw [split, requests_append, Nat.zero_add] at issued
  rcases List.mem_append.mp issued with early | late
  · by_cases waits : request ∈ waiting actions
    · rw [if_pos (missed_of_waiting closed waits)]
      exact .inr (.inl (List.mem_map_of_mem waits))
    · obtain ⟨room, given⟩ := arrived_before_end closed early waits
      rw [if_neg (by rw [missed_iff_of_not_waiting waits]; exact Nat.not_lt.mpr room)]
      exact .inl given
  · refine .inr (.inr (List.mem_map.mpr ⟨request, late, ?_⟩))
    simp only [closedAnswer, missed_iff_of_not_waiting (not_waiting_of_later late)]

end AtEnd

-- A request that is answered once has this answer and no other.
theorem filter_of_once {answers : List Answer} {answer : Answer} (member : answer ∈ answers)
    (once : (answers.map Answer.id).count answer.id = 1) :
    answers.filter (fun other => other.id == answer.id) = [answer] := by
  have length : (answers.filter fun other => other.id == answer.id).length = 1 := by
    rw [← List.countP_eq_length_filter]
    rwa [List.count, List.countP_map] at once
  obtain ⟨only, single⟩ := List.length_eq_one_iff.mp length
  have listed : answer ∈ answers.filter fun other => other.id == answer.id := by simp [member]
  rw [single, List.mem_singleton] at listed
  rw [single, listed]

-- A request gets its bytes, unless they never arrived or it waits behind a request whose bytes never did.
theorem answer_at_end {actions : List Action} (closed : .finish ∈ actions) {request : Request}
    (issued : request ∈ requests 0 actions) :
    (run {} actions).2.filter (fun answer => answer.id == request.id) =
      [if Missed actions request then endedError (fed actions).size request else arrived (fed actions) request] := by
  have member := answer_mem closed issued
  have named : (if Missed actions request then endedError (fed actions).size request
      else arrived (fed actions) request).id = request.id := by
    split
    · rfl
    · rfl
  have once := count_answers closed issued
  rw [← named] at once ⊢
  exact filter_of_once member once

-- Two bytes arrive of three. The request for one of the two waits behind the request for all three. The same request after
-- the end gets its byte.
def sampleEnd : List Action := [.read 0 3, .read 1 1, .feed ⟨#[7, 8]⟩, .finish, .read 1 1]

theorem sample_answer_at_end :
    (run {} sampleEnd).2.filter (fun answer => answer.id == 0) = [endedError 2 ⟨0, 3, 0⟩] ∧
    (run {} sampleEnd).2.filter (fun answer => answer.id == 1) = [endedError 2 ⟨1, 1, 1⟩] ∧
    (run {} sampleEnd).2.filter (fun answer => answer.id == 2) = [⟨2, .ok ⟨#[8]⟩⟩] := by
  have closed : .finish ∈ sampleEnd := by simp [sampleEnd]
  have whole := @answer_at_end sampleEnd closed ⟨0, 3, 0⟩ (by decide)
  have blocked := @answer_at_end sampleEnd closed ⟨1, 1, 1⟩ (by decide)
  have late := @answer_at_end sampleEnd closed ⟨1, 1, 2⟩ (by decide)
  rw [if_pos (by decide)] at whole blocked
  rw [if_neg (by decide)] at late
  exact ⟨whole, blocked, late⟩

-- The range of a request has arrived when the stream ends, and yet the request fails.
theorem complete_request_fails :
    ¬ ∀ (actions : List Action) (request : Request), .finish ∈ actions → request ∈ requests 0 actions →
      request.stop ≤ (fed actions).size → arrived (fed actions) request ∈ (run {} actions).2 := by
  intro claimed
  have given := claimed [.read 0 3, .read 1 1, .feed ⟨#[7, 8]⟩, .finish] ⟨1, 1, 1⟩ (by simp) (by decide) (by decide)
  have answers : (run {} [.read 0 3, .read 1 1, .feed ⟨#[7, 8]⟩, .finish]).2 =
      [endedError 2 ⟨0, 3, 0⟩, endedError 2 ⟨1, 1, 1⟩] := rfl
  rw [answers] at given
  simp [arrived, endedError] at given

end Stream
end CodeImage
