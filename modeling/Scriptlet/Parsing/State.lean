import Scriptlet.Diagnostic.Basic
import Scriptlet.Parsing.Power
import Scriptlet.Token.Stream

/-! The state of a parse: the tokens still to read, how deeply the parse is nested, the diagnostics
recorded so far, and a trace of what happened. -/
namespace Scriptlet

inductive Event
  /-- The token became the current one. -/
  | advanced (token : Token)
  /-- A token of this kind and power takes the expression before it, over the power `floor`. -/
  | applied (kind : Kind) (power floor : Power)
  /-- A diagnostic was recorded and parsing went on behind the token. -/
  | recorded (token : Token) (diagnostic : Diagnostic)
  /-- A level of nesting was entered; `depth` is the depth in it. -/
  | opened (depth : Nat)
  /-- The level of nesting at `depth` was left. -/
  | closed (depth : Nat)
  /-- A diagnostic arose at `depth`. -/
  | refused (depth : Nat) (diagnostic : Diagnostic)
  /-- The hash that the token opens was given up before its closing brace. -/
  | abandoned (token : Token)
  deriving DecidableEq, Repr

/-- The diagnostic that the event records. -/
def Event.diagnostic? : Event → Option Diagnostic
  | recorded _ d => some d
  | _ => none

inductive Severity
  | trace
  | debug
  deriving DecidableEq, Repr

/-- The log line of an event. Changes of depth, diagnostics before they are recorded, and hashes
that are given up leave none. -/
def Event.log? : Event → Option (Severity × String)
  | advanced token => some (.trace, "advance: current = " ++ token.describe)
  | applied kind power floor =>
    some (.trace, "led " ++ kind.label ++ " at " ++ power.label ++ " over " ++ floor.label)
  | recorded _ d =>
    some (.debug, "recorded error at " ++ d.position.offset.repr ++ ": " ++ d.message)
  | opened _ => none
  | closed _ => none
  | refused _ _ => none
  | abandoned _ => none

structure State where
  input : TokenStream
  depth : Nat
  errors : Array Diagnostic
  trace : Array Event
  deriving Repr

namespace State

def ofStream (input : TokenStream) : State :=
  ⟨input, 0, #[], #[]⟩

def current (s : State) : Token :=
  s.input.current

def peek (s : State) : Token :=
  s.input.peek

/-- How many tokens are left before the end of the source. -/
def remaining (s : State) : Nat :=
  s.input.remaining

def note (e : Event) (s : State) : State :=
  { s with trace := s.trace.push e }

def advance (s : State) : State :=
  let input := s.input.advance
  { s with input, trace := s.trace.push (.advanced input.current) }

def skipSemicolon (s : State) : State :=
  if s.peek.kind = .semicolon then s.advance else s

def record (d : Diagnostic) (s : State) : State :=
  { s with errors := s.errors.push d, trace := s.trace.push (.recorded s.current d) }

def enter (s : State) : State :=
  { s with depth := s.depth + 1, trace := s.trace.push (.opened (s.depth + 1)) }

def leave (s : State) : State :=
  { s with depth := s.depth - 1, trace := s.trace.push (.closed s.depth) }

@[simp] theorem current_advance (s : State) : s.advance.current = s.peek := rfl

@[simp] theorem remaining_advance (s : State) : s.advance.remaining = s.remaining - 1 :=
  TokenStream.remaining_advance s.input

theorem remaining_skipSemicolon_le (s : State) : s.skipSemicolon.remaining ≤ s.remaining := by
  unfold skipSemicolon
  split <;> simp

end State

end Scriptlet
