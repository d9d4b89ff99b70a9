import Scriptlet.Token.Basic

/-! A stream of tokens with one token of lookahead. It never runs dry: past the last token it
yields the token that ends the source, again and again. -/
namespace Scriptlet

structure TokenStream where
  /-- The tokens from the current one on, without the one that ends the source. -/
  ahead : List Token
  /-- The token that ends the source. -/
  stop : Token
  /-- How many tokens are left before the end of the source. -/
  remaining : Nat
  remaining_eq : remaining = ahead.length
  deriving DecidableEq, Repr

namespace TokenStream

/-- The stream with nothing before its end. -/
def ended (stop : Token) : TokenStream :=
  ⟨[], stop, 0, rfl⟩

def current (ts : TokenStream) : Token :=
  ts.ahead.headD ts.stop

def peek (ts : TokenStream) : Token :=
  ts.ahead.tail.headD ts.stop

def advance (ts : TokenStream) : TokenStream where
  ahead := ts.ahead.tail
  stop := ts.stop
  remaining := ts.remaining - 1
  remaining_eq := by rw [List.length_tail, ts.remaining_eq]

/-- The stream with one more token in front. -/
def push (t : Token) (ts : TokenStream) : TokenStream where
  ahead := t :: ts.ahead
  stop := ts.stop
  remaining := ts.remaining + 1
  remaining_eq := by rw [List.length_cons, ts.remaining_eq]

def toList (ts : TokenStream) : List Token :=
  ts.ahead ++ [ts.stop]

@[simp] theorem current_advance (ts : TokenStream) : ts.advance.current = ts.peek := rfl

@[simp] theorem remaining_advance (ts : TokenStream) :
    ts.advance.remaining = ts.remaining - 1 := rfl

@[simp] theorem current_push (t : Token) (ts : TokenStream) : (ts.push t).current = t := rfl

@[simp] theorem advance_push (t : Token) (ts : TokenStream) : (ts.push t).advance = ts := rfl

@[simp] theorem toList_push (t : Token) (ts : TokenStream) :
    (ts.push t).toList = t :: ts.toList := rfl

end TokenStream

end Scriptlet
