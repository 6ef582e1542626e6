import Bindery.Build.Stream
import Bindery.Proofs.FrameStream
import Bindery.Proofs.MessageText

/-!
# Commands over a stream

What is written for a command of at most the longest text that is read is a whole frame of its JSON,
`isFrame_toJson`. So the stream of any such commands is read to its end as their JSON, which is
read back as the commands: `sends_read_back`.
-/

namespace Bindery

namespace Frame

theorem isFrame_toJson {c : Command} (h : (textBytes c.toJson.compress).length ≤ limit) :
    ∃ f, encode c.toJson = .ok f ∧ IsFrame f c.toJson :=
  ⟨_, encode_ok h, isFrame_encode h (encode_ok h) c.parse_toJson⟩

end Frame

open Bindery.Frame

namespace Peer

theorem keeper_send {c : Command} {f : List UInt8} (h : encode c.toJson = .ok f)
    (s : Site (List UInt8)) (input : List UInt8) (ended : Bool) :
    keeper.transport.send c (s.reading input ended)
      = ({ s with remote := s.remote ++ f }.reading input ended, .ok ()) := by
  show keeper.send c (s.reading input ended) = _
  rw [send, h]
  rfl

theorem keeper_perform_sends : ∀ {cs : List Command} {fs : List (List UInt8)},
    List.Forall₂ (fun c f => encode c.toJson = .ok f) cs fs →
    ∀ (s : Site (List UInt8)) (input : List UInt8) (ended : Bool),
      keeper.transport.perform (cs.map .send) (s.reading input ended)
        = ({ s with remote := s.remote ++ fs.flatten }.reading input ended, .ok [])
  | [], _, .nil, s, input, ended => by simp [Transport.perform]
  | c :: r, _ :: fs, .cons hf hr, s, input, ended => by
    rw [List.map_cons, Transport.perform, keeper_send hf]
    simp only [keeper_perform_sends hr, List.flatten_cons, List.append_assoc]

/-- Commands that are sent are read back from the bytes that are written for them. -/
theorem sends_read_back (cs : List Command)
    (h : ∀ c ∈ cs, (textBytes c.toJson.compress).length ≤ limit) (s : Site (List UInt8))
    (input : List UInt8) (ended : Bool) :
    ∃ fs values, keeper.transport.perform (cs.map .send) (s.reading input ended)
        = ({ s with remote := s.remote ++ fs.flatten }.reading input ended, .ok [])
      ∧ List.Forall₂ IsFrame fs values ∧ readAll fs.flatten = (values, none)
      ∧ values.length = cs.length ∧ values.mapM Command.ofJson = .ok cs := by
  obtain ⟨fs, hencode, hframe⟩ : ∃ fs, List.Forall₂ (fun c f => encode c.toJson = .ok f) cs fs
      ∧ List.Forall₂ IsFrame fs (cs.map (·.toJson)) := by
    induction cs with
    | nil => exact ⟨[], .nil, .nil⟩
    | cons c r ih =>
      obtain ⟨hc, hr⟩ := List.forall_mem_cons.1 h
      obtain ⟨fs, hencode, hframe⟩ := ih hr
      obtain ⟨f, hf, hframeF⟩ := isFrame_toJson hc
      exact ⟨f :: fs, .cons hf hencode, .cons hframeF hframe⟩
  refine ⟨fs, cs.map (·.toJson), keeper_perform_sends hencode s input ended, hframe,
    readAll_flatten hframe, List.length_map _, ?_⟩
  rw [List.mapM_map]
  have hpure : (Command.ofJson ∘ fun c : Command => c.toJson) = fun c => pure c :=
    funext Command.ofJson_toJson
  rw [hpure, List.mapM_pure, List.map_id']
  rfl

/-- What is said to compile a source that is no text. -/
def binaryCommands : List Command :=
  [.init "A", .put "/lib/\x22A.v" ⟨#[0, 255, 34]⟩, .load "/lib/\x22A.v", .loadPackages ["+x", "é"]]

def quietSite : Site (List UInt8) where
  remote := []
  storage := .empty default
  stopped := false

theorem sends_read_back_binary :
    (∀ c ∈ binaryCommands, (textBytes c.toJson.compress).length ≤ limit)
      ∧ ∃ fs values, keeper.transport.perform (binaryCommands.map .send) (quietSite.reading [] true)
          = ({ quietSite with remote := quietSite.remote ++ fs.flatten }.reading [] true, .ok [])
        ∧ List.Forall₂ IsFrame fs values ∧ readAll fs.flatten = (values, none)
        ∧ values.length = binaryCommands.length
        ∧ values.mapM Command.ofJson = .ok binaryCommands := by
  have hshort : ∀ c ∈ binaryCommands, (textBytes c.toJson.compress).length ≤ limit := by
    decide +kernel
  exact ⟨hshort, sends_read_back binaryCommands hshort quietSite [] true⟩

end Peer

end Bindery
