import CodeImage.Stream

namespace CodeImage

inductive Fetch (α : Type) where
  | done (result : Except ImageError α)
  | ask (ranges : List (Nat × Nat)) (next : List ByteArray → Fetch α)

inductive Progress (α : Type) where
  | finished (result : Except ImageError α)
  | waiting (ids : List Nat) (next : List ByteArray → Fetch α)

-- A computation beside the stream that feeds it. `inbox` holds the answers that it has not looked at yet.
structure Download (α : Type) where
  stream : Stream := {}
  inbox : List Answer := []
  progress : Progress α

inductive Collected where
  | ready (parts : List ByteArray)
  | failed (error : ImageError)
  | incomplete
deriving DecidableEq, Inhabited

namespace Fetch

variable {α : Type}

def issue (stream : Stream) : List (Nat × Nat) → Stream × List Nat × List Answer
  | [] => (stream, [], [])
  | (offset, len) :: rest =>
    let (next, first) := stream.read offset len
    let (last, ids, later) := issue next rest
    (last, stream.issued :: ids, first ++ later)

def collect (inbox : List Answer) : List Nat → Collected
  | [] => .ready []
  | id :: rest =>
    match inbox.find? (·.id == id) with
    | none => .incomplete
    | some ⟨_, .error e⟩ => .failed e
    | some ⟨_, .ok part⟩ =>
      match collect inbox rest with
      | .ready parts => .ready (part :: parts)
      | other => other

def advance (stream : Stream) (inbox : List Answer) : Fetch α → Download α
  | .done result => ⟨stream, inbox, .finished result⟩
  | .ask ranges next =>
    let (stream, ids, answers) := issue stream ranges
    match collect (inbox ++ answers) ids with
    | .ready parts => advance stream (inbox ++ answers) (next parts)
    | .failed e => ⟨stream, inbox ++ answers, .finished (.error e)⟩
    | .incomplete => ⟨stream, inbox ++ answers, .waiting ids next⟩

def start (fetch : Fetch α) (stream : Stream := {}) : Download α := advance stream [] fetch

def range (data : ByteArray) (range : Nat × Nat) : Except ImageError ByteArray :=
  match slice? data range.1 range.2 with
  | some part => .ok part
  | none => .error (.streamEnded range.1 range.2 data.size)

-- The result of a computation on a stream that consists of `data` and nothing more.
def eval (data : ByteArray) : Fetch α → Except ImageError α
  | .done result => result
  | .ask ranges next =>
    match ranges.mapM (range data) with
    | .ok parts => eval data (next parts)
    | .error e => .error e

end Fetch

namespace Download

variable {α : Type}

def poll (d : Download α) : Download α :=
  match d.progress with
  | .finished _ => d
  | .waiting ids next =>
    match Fetch.collect d.inbox ids with
    | .ready parts => Fetch.advance d.stream d.inbox (next parts)
    | .failed e => { d with progress := .finished (.error e) }
    | .incomplete => d

def feed (d : Download α) (chunk : ByteArray) : Download α :=
  let (stream, answers) := d.stream.feed chunk
  { d with stream, inbox := d.inbox ++ answers }

def finish (d : Download α) : Download α :=
  let (stream, answers) := d.stream.finish
  { d with stream, inbox := d.inbox ++ answers }

def result? (d : Download α) : Option (Except ImageError α) :=
  match d.progress with
  | .finished result => some result
  | .waiting _ _ => none

def feedAll (d : Download α) (chunks : List ByteArray) : Download α :=
  (chunks.foldl (fun d chunk => (d.feed chunk).poll) d).finish.poll

end Download

def chunks (size : Nat) (data : ByteArray) : List ByteArray :=
  (List.range ((data.size + (size - 1)) / size)).map fun i => data.extract (i * size) ((i + 1) * size)

end CodeImage
