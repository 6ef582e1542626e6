import Bindery.Message.Frame

/-!
# Carriers

A carrier takes what a remote sends to the local side: as replies, if the two share a process, or
as the bytes of a stream. What is not a reply is kept as other traffic.
-/

namespace Bindery

/-- What the local side finds when it looks at what has come in. -/
inductive Taken (α : Type) where
  | reply (r : Reply) (rest : List α)
  | refused (e : Error) (rest : List α)
  /-- Nothing complete; the error counts if nothing more comes. -/
  | incomplete (e : Error)

/-- What comes in and how it is read. -/
structure Carrier (α : Type) where
  /-- What a message comes in as. -/
  message : Json → List α
  /-- What bytes come in as that need not be a message. -/
  raw : ByteArray → List α
  take : List α → Taken α
  /-- What sending meets after the remote has hung up. -/
  refusal : Command → Error
  length_lt : ∀ {xs rest : List α} {r : Reply}, take xs = .reply r rest → rest.length < xs.length

namespace Carrier

/-- Takes the first of some replies. -/
def takeReply : List Reply → Taken Reply
  | r :: rest => .reply r rest
  | [] => .incomplete (.channel .dropped)

/-- The two sides share a process. -/
def pair : Carrier Reply where
  message v := [.receive v]
  raw _ := []
  take := takeReply
  refusal c := .channel (.droppedBefore c.tagText)
  length_lt {xs rest r} h := by
    cases xs with
    | nil => simp [takeReply] at h
    | cons x xs =>
      simp only [takeReply, Taken.reply.injEq] at h
      simp [h.2]

/-- Takes the first frame of some bytes. -/
def takeFrame (bytes : List UInt8) : Taken UInt8 :=
  match Frame.read bytes with
  | .message v rest => .reply (.receive v) rest
  | .refused e rest => .refused e rest
  | .noLength => .incomplete (.channel .outputClosed)
  | .shortBody => .incomplete (.storage .unexpectedEnd)

/-- The two sides talk over a stream. -/
def stream : Carrier UInt8 where
  message v := (Frame.encode v).toOption.getD []
  raw bytes := bytes.data.toList
  take := takeFrame
  refusal _ := .channel .brokenPipe
  length_lt {xs rest r} h := by
    unfold takeFrame at h
    split at h <;> simp only [Taken.reply.injEq, reduceCtorEq] at h
    rename_i v rest' hr
    rw [← h.2]
    exact Frame.length_rest_lt hr

end Carrier

end Bindery
