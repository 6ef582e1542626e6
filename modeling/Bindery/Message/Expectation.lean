import Bindery.Message.Basic

/-!
# Expectations

While a step waits, a reply satisfies it, fails it, or has nothing to do with it. A sequence of
steps sends commands and waits for replies.
-/

namespace Bindery

/-- The kinds of replies that satisfy a wait and those that fail it. A kind in both satisfies. -/
structure Expectation where
  accept : List Reply.Tag
  reject : List Reply.Tag := Reply.Tag.failures
  deriving DecidableEq, Repr

namespace Expectation

inductive Verdict where
  | satisfied
  | failed
  | unrelated
  deriving DecidableEq, Repr

def judge (e : Expectation) (r : Reply) : Verdict :=
  if r.tag ∈ e.accept then .satisfied
  else if r.tag ∈ e.reject then .failed
  else .unrelated

end Expectation

/-- A part of a conversation: something said, or a wait for an answer. -/
inductive Step where
  | send (command : Command)
  | expect (expectation : Expectation)
  deriving DecidableEq

def Step.await (tag : Reply.Tag) : Step := .expect { accept := [tag] }

end Bindery
