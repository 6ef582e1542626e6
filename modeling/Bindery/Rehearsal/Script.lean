import Bindery.Message.Wire
import Bindery.Volume.Basic

/-!
# Rehearsed compilers

A rehearsed compiler answers commands by a script instead of compiling. What the script does not
say is answered as a compiler would that finds no fault.
-/

namespace Bindery.Rehearsal

/-- What a script has for a command. -/
structure Rule where
  send : List Json
  /-- Bytes sent as they are, where the compiler is reached over a stream. -/
  raw : ByteArray
  /-- Asks for a stop. -/
  stop : Bool
  /-- Hangs up after sending. -/
  close : Bool
  /-- Whether the usual answer follows. -/
  usual : Bool

structure Script where
  /-- Sent before anything else. -/
  greeting : List Json
  /-- Sent before each usual answer. -/
  chatter : List Json
  /-- For the line of a command, the rules for its first, its second and its later uses. -/
  rules : List (String × List Rule)

/-- What is sent: a message, or bytes that need not be one. -/
inductive Sent where
  | message (v : Json)
  | raw (bytes : ByteArray)

/-- The line that notes a command. -/
def line : Command → String
  | .init top => "Init " ++ top
  | .put path content => "Put " ++ path ++ " " ++ Text.ofBytes content
  | .load path => "Load " ++ path
  | .compile path => "Compile " ++ path
  | .get path => "Get " ++ path
  | .loadPackages names => "LoadPkg " ++ " ".intercalate names

/-- A compiler that follows a script. -/
structure Actor where
  script : Script
  /-- Where it writes what it compiles, besides answering. -/
  shared : Option Volume
  /-- The module to be compiled. -/
  top : String
  /-- The lines of the commands so far. -/
  seen : List String
  greeted : Bool
  closed : Bool

/-- An actor with what its acting can change. -/
structure Scene where
  actor : Actor
  storage : Storage
  stopped : Bool

namespace Actor

def new (script : Script) (shared : Option Volume) : Actor := ⟨script, shared, "", [], false, false⟩

/-- The rule for a command: of the rules for its line, the last one also serves all later uses. -/
def rule? (a : Actor) (c : Command) : Option Rule := do
  let rules ← a.script.rules.lookup (line c)
  rules[min (a.seen.count (line c)) (rules.length - 1)]?

/-- Takes note of a command. -/
def note (a : Actor) (c : Command) : Actor :=
  let a := { a with seen := a.seen ++ [line c] }
  match c with
  | .init top => { a with top }
  | _ => a

/-- What compiling the current module gives. -/
def artifact (a : Actor) : ByteArray := ("compiled:" ++ a.top).toUTF8

/-- The usual answer to a command. -/
def answer? (a : Actor) : Command → Option Reply
  | .load path => some (.loaded path)
  | .compile path => some (.compiled path)
  | .get path => some (.got path a.artifact)
  | .loadPackages _ => some .packagesLoaded
  | .init _ | .put _ _ => none

/-- The messages of the usual answer. -/
def usual (a : Actor) (c : Command) : List Sent :=
  match a.answer? c with
  | some r => (a.script.chatter ++ [r.toJson]).map .message
  | none => []

end Actor

namespace Scene

/-- Keeps what is compiled where the actor shares a volume. -/
def keep (s : Scene) (c : Command) : Scene :=
  match c, s.actor.shared with
  | .compile path, some v =>
    match s.storage.write v path s.actor.artifact with
    | .ok storage => { s with storage }
    | .error _ => s
  | _, _ => s

/-- Acts on a command. -/
def act (s : Scene) (c : Command) : Scene × List Sent :=
  let rule := s.actor.rule? c
  let s := { s with actor := s.actor.note c }
  match rule with
  | none => (s.keep c, s.actor.usual c)
  | some r =>
    let sent := r.send.map .message ++ [.raw r.raw]
    let s := { s with stopped := s.stopped || r.stop }
    if r.close then ({ s with actor := { s.actor with closed := true } }, sent)
    else if r.usual then (s.keep c, sent ++ s.actor.usual c)
    else (s, sent)

/-- Acts on commands in order until it has hung up. -/
def acts (s : Scene) : List Command → Scene × List Sent
  | [] => (s, [])
  | c :: r =>
    if s.actor.closed then (s, [])
    else
      let (s, sent) := s.act c
      let (s, more) := s.acts r
      (s, sent ++ more)

/-- Greets, if it has not yet, and acts on commands. -/
def play (s : Scene) (commands : List Command) : Scene × List Sent :=
  let greeting := if s.actor.greeted then [] else s.actor.script.greeting.map Sent.message
  let (s, sent) := { s with actor := { s.actor with greeted := true } }.acts commands
  (s, greeting ++ sent)

theorem greeted_act (s : Scene) (c : Command) :
    (s.act c).1.actor.greeted = s.actor.greeted := by
  have hn : ∀ a : Actor, (a.note c).greeted = a.greeted := by
    intro a
    unfold Actor.note
    cases c <;> rfl
  have hk : ∀ s : Scene, (s.keep c).actor = s.actor := by
    intro s
    unfold keep
    split
    · split <;> rfl
    · rfl
  unfold act
  simp only []
  split
  · simp [hk, hn]
  · split
    · simp [hn]
    · split <;> simp [hk, hn]

theorem greeted_acts (s : Scene) (commands : List Command) :
    (s.acts commands).1.actor.greeted = s.actor.greeted := by
  induction commands generalizing s with
  | nil => rfl
  | cons c r ih =>
    unfold acts
    split
    · rfl
    · simp only [ih, greeted_act]

theorem greeted_play (s : Scene) (commands : List Command) :
    (s.play commands).1.actor.greeted = true := by
  simp [play, greeted_acts]

/-- Who has greeted sends nothing without being asked. -/
theorem play_nil {s : Scene} (h : s.actor.greeted = true) : (s.play []).2 = [] := by
  simp [play, acts, h]

end Scene

end Bindery.Rehearsal
