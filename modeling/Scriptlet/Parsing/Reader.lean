import Scriptlet.Parsing.State

/-! Parsers as functions of the state. A failed parse keeps the state that it reached, so that
parsing can go on from there. Steps that cannot fail are steps of every `Reader`. -/
namespace Scriptlet

abbrev Reader (ε : Type) := EStateM ε State

abbrev Parser := Reader Diagnostic

namespace Reader

variable {ε α : Type}

def current : Reader ε Token := fun s => .ok s.current s

def peek : Reader ε Token := fun s => .ok s.peek s

def advance : Reader ε Unit := fun s => .ok () s.advance

/-- Steps onto a semicolon that comes next. -/
def skipSemicolon : Reader ε Unit := fun s => .ok () s.skipSemicolon

def note (e : Event) : Reader ε Unit := fun s => .ok () (s.note e)

/-- Records the diagnostic of a failed parse and steps onto a semicolon that comes next, so that
the semicolon is not taken for the start of a statement. -/
def recovering (p : Parser α) : Reader ε (Option α) := fun s =>
  match p s with
  | .ok a t => .ok (some a) t
  | .error d t => .ok none (t.record d).skipSemicolon

/-- Runs a reader that cannot fail. -/
def run (p : Reader Empty α) (s : State) : α × State :=
  match p s with
  | .ok a t => (a, t)

theorem bind_of_ok {β : Type} {p : Reader ε α} {f : α → Reader ε β} {s t : State} {a : α}
    (h : p s = .ok a t) : (p >>= f) s = f a t := by
  change EStateM.bind p f s = _
  rw [EStateM.bind, h]

theorem current_bind {β : Type} (f : Token → Reader ε β) (s : State) :
    (current >>= f) s = f s.current s := rfl

theorem bind_of_error {β : Type} {p : Reader ε α} {f : α → Reader ε β} {s t : State} {e : ε}
    (h : p s = .error e t) : (p >>= f) s = .error e t := by
  change EStateM.bind p f s = _
  rw [EStateM.bind, h]

end Reader

end Scriptlet
