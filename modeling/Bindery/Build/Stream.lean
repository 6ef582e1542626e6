import Bindery.Build.Carrier
import Bindery.Build.Channel

/-!
# Conversations over a stream

Commands go out as frames, which a peer takes or which do not reach it. What the peer sends comes in
as bytes, in which replies are found frame by frame. The bytes that come in are given: they stand
for all that the peer sends, whatever makes it send them.
-/

namespace Bindery

/-- Takes a reply from what has come in. A part of a message is lost with the wait for the rest of
it. -/
def Carrier.receive {α : Type} (k : Carrier α) (ended : Bool) (inbox : List α) :
    List α × Except Halt Reply :=
  match k.take inbox with
  | .reply r rest => (rest, .ok r)
  | .refused e rest => (rest, .error (.failed e))
  | .incomplete e => ([], .error (if ended then .failed e else .stalled))

theorem Carrier.length_receive_lt {α : Type} {k : Carrier α} {ended : Bool} {inbox rest : List α}
    {r : Reply} (h : k.receive ended inbox = (rest, .ok r)) : rest.length < inbox.length := by
  unfold Carrier.receive at h
  split at h
  · rename_i ht
    simp only [Prod.mk.injEq] at h
    exact h.1 ▸ k.length_lt ht
  · simp at h
  · simp at h

/-- The other end of a stream. -/
structure Peer (σ : Type) where
  /-- Takes the bytes that are written, or tells why they cannot be. -/
  take : List UInt8 → Site σ → Site σ × Except ChannelFault Unit
  /-- What it has done to a site by the time the local side looks at its flag. -/
  meanwhile : Site σ → Site σ := id

/-- A peer in some state, what is still to come from it, and whether the stream ends after that. -/
structure Duplex (σ : Type) where
  peer : σ
  input : List UInt8
  ended : Bool

namespace Site

variable {σ : Type}

def reading (s : Site σ) (input : List UInt8) (ended : Bool) : Site (Duplex σ) :=
  ⟨⟨s.remote, input, ended⟩, s.storage, s.stopped⟩

def ofPeer (s : Site (Duplex σ)) : Site σ := ⟨s.remote.peer, s.storage, s.stopped⟩

def withInput (s : Site (Duplex σ)) (input : List UInt8) : Site (Duplex σ) :=
  { s with remote := { s.remote with input } }

end Site

namespace Peer

variable {σ : Type} (p : Peer σ)

def send (c : Command) (s : Site (Duplex σ)) : Site (Duplex σ) × Except Error Unit :=
  match Frame.encode c.toJson with
  | .error e => (s, .error e)
  | .ok bytes =>
    match p.take bytes s.ofPeer with
    | (s', .ok ()) => (s'.reading s.remote.input s.remote.ended, .ok ())
    | (s', .error fault) => (s'.reading s.remote.input s.remote.ended, .error (.channel fault))

def receive (s : Site (Duplex σ)) : Site (Duplex σ) × Except Halt Reply :=
  let taken := Carrier.stream.receive s.remote.ended s.remote.input
  (s.withInput taken.1, taken.2)

def transport : Transport (Duplex σ) where
  send := p.send
  receive := receive
  meanwhile s := (p.meanwhile s.ofPeer).reading s.remote.input s.remote.ended
  pending s := s.remote.input.length
  pending_lt h := by
    simp only [receive, Prod.mk.injEq] at h
    rw [← h.1]
    exact Carrier.length_receive_lt (Prod.ext rfl h.2)

/-- A peer that keeps what is written. -/
def keeper : Peer (List UInt8) where
  take bytes s := ({ s with remote := s.remote ++ bytes }, .ok ())

end Peer

end Bindery
