import CodeImage.Proofs.Interleaving

-- A request that is complete stays so with the same bytes, so two chunks answer what their bytes answer at once, in the
-- same order.

namespace CodeImage

namespace Stream

variable {s : Stream}

-- More data leaves the answer to a complete request as it is.
theorem arrived_append {data : ByteArray} {request : Request} (complete : request.stop ≤ data.size) (more : ByteArray) :
    arrived (data ++ more) request = arrived data request := by
  have here : slice? data request.offset request.len = some (data.extract request.offset request.stop) := if_pos complete
  have longer := slice?_append more here
  have room : request.offset + request.len ≤ (data ++ more).size := by
    rw [ByteArray.size_append]
    exact Nat.le_add_right_of_le complete
  rw [slice?, if_pos room, Option.some.injEq] at longer
  rw [arrived, arrived, ← longer]
  rfl

-- What is ready in more data is what was ready before, followed by what becomes ready of the rest of the queue.
theorem ready_append (data more : ByteArray) (queue : List Request) :
    ready (data ++ more) queue =
      ((ready data queue).1 ++ (ready (data ++ more) (ready data queue).2).1,
        (ready (data ++ more) (ready data queue).2).2) := by
  induction queue with
  | nil => rfl
  | cons head rest ih =>
    by_cases complete : head.stop ≤ data.size
    · have still : head.stop ≤ (data ++ more).size := by
        rw [ByteArray.size_append]
        exact Nat.le_add_right_of_le complete
      have first : ready data (head :: rest) = (arrived data head :: (ready data rest).1, (ready data rest).2) := by
        rw [ready, if_pos complete]
        rfl
      have longer : ready (data ++ more) (head :: rest) =
          (arrived (data ++ more) head :: (ready (data ++ more) rest).1, (ready (data ++ more) rest).2) := by
        rw [ready, if_pos still]
        rfl
      rw [longer, first, arrived_append complete, ih]
      rfl
    · have none : ready data (head :: rest) = ([], head :: rest) := by rw [ready, if_neg complete]
      rw [none]
      rfl

theorem feed_of_open (still : s.ended = false) (chunk : ByteArray) :
    s.feed chunk = ({ s with data := s.data ++ chunk, pending := (ready (s.data ++ chunk) s.pending).2 },
      (ready (s.data ++ chunk) s.pending).1) := by
  rw [feed, if_neg (by simp [still]), dispatch_eq]

theorem feed_of_ended (ended : s.ended = true) (chunk : ByteArray) : s.feed chunk = (s, []) := by
  simp [feed, ended]

-- Two chunks one after the other, whatever state they meet.
theorem feed_append (s : Stream) (a b : ByteArray) :
    s.feed (a ++ b) = (((s.feed a).1.feed b).1, (s.feed a).2 ++ ((s.feed a).1.feed b).2) := by
  cases ended : s.ended with
  | true =>
    rw [feed_of_ended ended, feed_of_ended ended, feed_of_ended ended]
    rfl
  | false =>
    have still : (s.feed a).1.ended = false := by
      rw [feed_of_open ended]
      exact ended
    rw [feed_of_open still, feed_of_open ended, feed_of_open ended, ← ByteArray.append_assoc, ready_append]

-- Between actions there is nothing to answer, so a chunk without bytes does nothing.
theorem feed_empty (resting : s.Resting) : s.feed ByteArray.empty = (s, []) := by
  cases ended : s.ended with
  | true => exact feed_of_ended ended _
  | false =>
    rw [feed_of_open ended, ByteArray.append_empty]
    obtain ⟨data, ended', pending, issued⟩ := s
    cases pending with
    | nil => rfl
    | cons head rest =>
      have short : ¬ head.stop ≤ data.size := Nat.not_le.mpr (resting.waiting head rfl)
      have none : ready data (head :: rest) = ([], head :: rest) := by rw [ready, if_neg short]
      simp only [none]

theorem resting_step (resting : s.Resting) (action : Action) : (s.step action).1.Resting := by
  obtain ⟨done, failed, moved⟩ := step_moved resting action
  exact moved.resting

-- Chunks in a row are fed as one.
theorem run_chunks (resting : s.Resting) (chunks : List ByteArray) : s.run (chunks.map .feed) = s.feed (joined chunks) := by
  induction chunks generalizing s with
  | nil => exact (feed_empty resting).symm
  | cons chunk rest ih =>
    rw [List.map_cons, run_cons, ih (resting_step resting _), joined, feed_append]
    rfl

-- Two runs that differ only in how the bytes between other actions are cut.
inductive Recut : List Action → List Action → Prop where
  | nil : Recut [] []
  | action (action : Action) {rest rest' : List Action} (later : Recut rest rest') :
      Recut (action :: rest) (action :: rest')
  | chunks {first second : List ByteArray} (bytes : joined first = joined second) {rest rest' : List Action}
      (later : Recut rest rest') : Recut (first.map .feed ++ rest) (second.map .feed ++ rest')

theorem Recut.refl (actions : List Action) : Recut actions actions := by
  induction actions with
  | nil => exact .nil
  | cons action rest ih => exact .action action ih

theorem Recut.after (before : List Action) {actions actions' : List Action} (recut : Recut actions actions') :
    Recut (before ++ actions) (before ++ actions') := by
  induction before with
  | nil => exact recut
  | cons action rest ih => exact .action action ih

theorem run_recut {actions actions' : List Action} (recut : Recut actions actions') (resting : s.Resting) :
    s.run actions = s.run actions' := by
  induction recut generalizing s with
  | nil => rfl
  | action action later ih => rw [run_cons, run_cons, ih (resting_step resting action)]
  | @chunks first second bytes rest rest' later ih =>
    have fed : (s.feed (joined second)).1.Resting := resting_step resting (.feed _)
    rw [run_append, run_append, run_chunks resting, run_chunks resting, bytes, ih fed]

-- Where chunks are cut is not seen.
theorem chunks_unobservable :
    -- In every state two chunks leave the data, the queue and the answers of one chunk with the bytes of both.
    (∀ (s : Stream) (a b : ByteArray), ((s.feed a).1.feed b).1 = (s.feed (a ++ b)).1 ∧
      (s.feed a).2 ++ ((s.feed a).1.feed b).2 = (s.feed (a ++ b)).2) ∧
    -- Bytes that come between two actions of a run may be cut in any other way, whatever happens before and after.
    (∀ (before after : List Action) (first second : List ByteArray), joined first = joined second →
      run {} (before ++ first.map .feed ++ after) = run {} (before ++ second.map .feed ++ after)) ∧
    -- The same everywhere in a run at once.
    (∀ actions actions' : List Action, Recut actions actions' → run {} actions = run {} actions') := by
  refine ⟨?_, ?_, ?_⟩
  · intro s a b
    rw [feed_append]
    exact ⟨rfl, rfl⟩
  · intro before after first second bytes
    rw [List.append_assoc, List.append_assoc]
    exact run_recut (.after before (.chunks bytes (.refl after))) initial_reached.resting
  · intro actions actions' recut
    exact run_recut recut initial_reached.resting

def sampleBefore : List Action := [.read 1 2, .read 1 0, .read 0 2]
def sampleAfter : List Action := [.read 2 2, .finish]

-- Three bytes in two chunks, and in three of which one is empty. A request without bytes, one that waits and one that
-- overlaps them both.
theorem sample_chunks_unobservable :
    run {} (sampleBefore ++ List.map .feed [⟨#[7, 8]⟩, ⟨#[9]⟩] ++ sampleAfter) =
      run {} (sampleBefore ++ List.map .feed [⟨#[7]⟩, ⟨#[]⟩, ⟨#[8, 9]⟩] ++ sampleAfter) :=
  chunks_unobservable.2.1 sampleBefore sampleAfter [⟨#[7, 8]⟩, ⟨#[9]⟩] [⟨#[7]⟩, ⟨#[]⟩, ⟨#[8, 9]⟩] (by decide)

end Stream
end CodeImage
