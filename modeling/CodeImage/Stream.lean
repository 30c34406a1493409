import CodeImage.Error

namespace CodeImage

structure Request where
  offset : Nat
  len : Nat
  id : Nat
deriving DecidableEq, Inhabited, Repr

structure Answer where
  id : Nat
  result : Except ImageError ByteArray

-- Requests wait in the order in which they will be answered: by offset, and those for the same offset by issue.
structure Stream where
  data : ByteArray := ByteArray.empty
  ended : Bool := false
  pending : List Request := []
  issued : Nat := 0
deriving DecidableEq, Inhabited

namespace Request

def stop (request : Request) : Nat := request.offset + request.len

def before (a b : Request) : Bool :=
  decide (a.offset < b.offset) || (decide (a.offset = b.offset) && decide (a.id < b.id))

def enqueue (request : Request) : List Request → List Request
  | [] => [request]
  | head :: rest => if head.before request then head :: request.enqueue rest else request :: head :: rest

end Request

namespace Stream

def endedError (received : Nat) (request : Request) : Answer :=
  ⟨request.id, .error (.streamEnded request.offset request.len received)⟩

def ready (data : ByteArray) : List Request → List Answer × List Request
  | [] => ([], [])
  | head :: rest =>
    if head.stop ≤ data.size then
      let (answers, left) := ready data rest
      (⟨head.id, .ok (data.extract head.offset head.stop)⟩ :: answers, left)
    else ([], head :: rest)

def dispatch (s : Stream) : Stream × List Answer :=
  let (answers, pending) := ready s.data s.pending
  ({ s with pending }, answers)

-- Issues a request. After the end of the stream, one that is out of reach fails at once.
def read (s : Stream) (offset len : Nat) : Stream × List Answer :=
  let request : Request := ⟨offset, len, s.issued⟩
  let s := { s with issued := s.issued + 1 }
  if s.ended && decide (s.data.size < request.stop) then (s, [endedError s.data.size request])
  else ({ s with pending := request.enqueue s.pending }).dispatch

def feed (s : Stream) (chunk : ByteArray) : Stream × List Answer :=
  if s.ended then (s, []) else ({ s with data := s.data ++ chunk }).dispatch

def feedWarnings (s : Stream) : List Warning := if s.ended then [.lateChunk] else []

def finish (s : Stream) : Stream × List Answer :=
  let (s, answers) := { s with ended := true }.dispatch
  ({ s with pending := [] }, answers ++ s.pending.map (endedError s.data.size))

def abandon (s : Stream) : List Answer := s.pending.map (endedError 0)

inductive Action where
  | read (offset len : Nat)
  | feed (chunk : ByteArray)
  | finish

def step (s : Stream) : Action → Stream × List Answer
  | .read offset len => s.read offset len
  | .feed chunk => s.feed chunk
  | .finish => s.finish

def run (s : Stream) : List Action → Stream × List Answer
  | [] => (s, [])
  | action :: rest =>
    let (s, first) := s.step action
    let (s, later) := s.run rest
    (s, first ++ later)

end Stream
end CodeImage
