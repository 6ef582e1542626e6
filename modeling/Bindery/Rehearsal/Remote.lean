import Bindery.Build.Stream
import Bindery.Rehearsal.Script

/-!
# Conversations with a rehearsed compiler

The compiler acts only when the local side waits and nothing complete has come in; then it acts on
all commands that have been sent. So what can still come in is fixed by the commands, and each
reply that is received leaves less of it.
-/

namespace Bindery.Rehearsal

/-- What is sent as it comes in. -/
def Sent.carried {α : Type} (k : Carrier α) : Sent → List α
  | .message v => k.message v
  | .raw bytes => k.raw bytes

/-- A rehearsed compiler with what is under way to it and from it. -/
structure Remote (α : Type) where
  actor : Actor
  commands : List Command
  inbox : List α

namespace Remote

variable {α : Type} (k : Carrier α)

def new (script : Script) (shared : Option Volume) : Remote α := ⟨.new script shared, [], []⟩

def scene (s : Site (Remote α)) : Scene := ⟨s.remote.actor, s.storage, s.stopped⟩

/-- Lets the compiler act on all commands. -/
def settle (s : Site (Remote α)) : Site (Remote α) :=
  let (played, sent) := (scene s).play s.remote.commands
  ⟨⟨played.actor, [], s.remote.inbox ++ sent.flatMap (·.carried k)⟩, played.storage, played.stopped⟩

def withInbox (s : Site (Remote α)) (inbox : List α) : Site (Remote α) :=
  { s with remote := { s.remote with inbox } }

def send (c : Command) (s : Site (Remote α)) : Site (Remote α) × Except Error Unit :=
  if s.remote.actor.closed then (s, .error (k.refusal c))
  else ({ s with remote := { s.remote with commands := s.remote.commands ++ [c] } }, .ok ())

/-- Takes what comes in after the compiler has acted. -/
def receiveSettled (s : Site (Remote α)) : Site (Remote α) × Except Halt Reply :=
  let taken := k.receive s.remote.actor.closed s.remote.inbox
  (withInbox s taken.1, taken.2)

def receive (s : Site (Remote α)) : Site (Remote α) × Except Halt Reply :=
  match k.take s.remote.inbox with
  | .reply r rest => (withInbox s rest, .ok r)
  | .refused e rest => (withInbox s rest, .error (.failed e))
  | .incomplete _ => receiveSettled k (settle k s)

/-- How much can come in without a further command. -/
def pending (s : Site (Remote α)) : Nat := (settle k s).remote.inbox.length

theorem pending_withInbox (s : Site (Remote α)) (inbox : List α) :
    pending k (withInbox s inbox) + s.remote.inbox.length = pending k s + inbox.length := by
  simp only [pending, settle, scene, withInbox, List.length_append]
  omega

theorem pending_settle (s : Site (Remote α)) :
    pending k (settle k s) = (settle k s).remote.inbox.length := by
  have h : (scene (settle k s)).actor.greeted = true := Scene.greeted_play _ _
  simp only [pending, settle] at *
  rw [Scene.play_nil h]
  simp

theorem pending_receive_lt {s s' : Site (Remote α)} {r : Reply}
    (h : receive k s = (s', .ok r)) : pending k s' < pending k s := by
  unfold receive at h
  split at h
  · rename_i r' rest ht
    simp only [Prod.mk.injEq] at h
    have := k.length_lt ht
    have := pending_withInbox k s rest
    rw [← h.1]
    omega
  · simp at h
  · rcases ht : k.receive (settle k s).remote.actor.closed (settle k s).remote.inbox with ⟨rest, out⟩
    simp only [receiveSettled, ht, Prod.mk.injEq] at h
    obtain ⟨rfl, rfl⟩ := h
    have hlt := k.length_receive_lt ht
    have hshift := pending_withInbox k (settle k s) rest
    have hsettled := pending_settle k s
    have hpending : pending k s = (settle k s).remote.inbox.length := rfl
    omega

/-- The transport to a rehearsed compiler. -/
def transport : Transport (Remote α) where
  send := send k
  receive := receive k
  pending := pending k
  pending_lt := pending_receive_lt k

end Remote

end Bindery.Rehearsal
