import Bindery.Message.Expectation
import Bindery.Volume.Basic

/-!
# Channels

A conversation with a remote compiler. What the conversation can change is its site: the remote,
the storage, in which the remote may write, and the flag that asks for a stop, which it may set.
A transport sends without waiting; it receives until the remote has closed, and stalls if the
remote is silent. While a wait goes on, replies that have nothing to do with it are dropped. What
others do to the site shows when something is sent or received and when the flag is looked at.
-/

namespace Bindery

/-- Where a conversation takes place, with a remote in some state. -/
structure Site (ρ : Type) where
  remote : ρ
  storage : Storage
  stopped : Bool

/-- Why a conversation does not go on. -/
inductive Halt where
  | failed (e : Error)
  /-- The remote is silent, and the wait has no end. -/
  | stalled
  deriving DecidableEq

/-- A way to talk to a remote. Of the messages that can be received without sending there are ever
fewer, so a wait ends. -/
structure Transport (ρ : Type) where
  send : Command → Site ρ → Site ρ × Except Error Unit
  receive : Site ρ → Site ρ × Except Halt Reply
  /-- What has become of a site by the time the local side looks at its flag. -/
  meanwhile : Site ρ → Site ρ := id
  pending : Site ρ → Nat
  pending_lt : ∀ {s s' : Site ρ} {r : Reply}, receive s = (s', .ok r) → pending s' < pending s

namespace Transport

variable {ρ : Type}

/-- Waits for a reply that satisfies or fails an expectation. -/
def expect (t : Transport ρ) (e : Expectation) (s : Site ρ) : Site ρ × Except Halt Reply :=
  match _h : t.receive s with
  | (s', .error halt) => (s', .error halt)
  | (s', .ok r) =>
    match e.judge r with
    | .satisfied => (s', .ok r)
    | .failed => (s', .error (.failed (.failure r)))
    | .unrelated => expect t e s'
termination_by t.pending s
decreasing_by exact t.pending_lt _h

/-- Takes steps in order up to a failure; the replies that satisfied them. -/
def perform (t : Transport ρ) : List Step → Site ρ → Site ρ × Except Halt (List Reply)
  | [], s => (s, .ok [])
  | .send c :: steps, s =>
    match t.send c s with
    | (s, .ok ()) => perform t steps s
    | (s, .error e) => (s, .error (.failed e))
  | .expect e :: steps, s =>
    match t.expect e s with
    | (s, .error halt) => (s, .error halt)
    | (s, .ok r) =>
      match perform t steps s with
      | (s, .ok rs) => (s, .ok (r :: rs))
      | (s, .error halt) => (s, .error halt)

end Transport

end Bindery
