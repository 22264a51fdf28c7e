namespace ArithTree

-- Why a sink takes no more text: its room is used up, its device is full, or its owner
-- gives a reason.
inductive WriteError
  | noRoom
  | deviceFull
  | refused (reason : String)
  deriving DecidableEq

namespace WriteError

def message : WriteError → String
  | noRoom => "failed to write whole buffer"
  | deviceFull => "No space left on device (os error 28)"
  | refused reason => reason

end WriteError

-- How much more a sink takes, and the error for what comes after.
inductive Capacity
  | unlimited
  | limited (room : Nat) (error : WriteError)
  deriving DecidableEq

-- A place for output. All output is ASCII, so that its characters are its bytes.
structure Sink where
  text : String
  capacity : Capacity
  deriving DecidableEq

namespace Sink

def unlimited : Sink := ⟨"", .unlimited⟩

def limited (room : Nat) (error : WriteError) : Sink := ⟨"", .limited room error⟩

-- Appends a piece. A piece that does not fit leaves as much of it as there is room for.
def write (s : Sink) (piece : String) : Except WriteError Unit × Sink :=
  match s.capacity with
  | .unlimited => (.ok (), { s with text := s.text ++ piece })
  | .limited room error =>
    if piece.length ≤ room then
      (.ok (), ⟨s.text ++ piece, .limited (room - piece.length) error⟩)
    else
      (.error error, ⟨s.text ++ String.ofList (piece.toList.take room), .limited 0 error⟩)

end Sink

end ArithTree
