import Bindery.Build.Stream
import Bindery.Proofs.FrameStream
import Bindery.Proofs.OutputManifest

/-!
# Traffic that does not matter

Of two sites of a conversation one may hear what the other hears and other traffic besides,
`Overhears`. As no wait of a run has to do with other traffic, the runs at both sites are the same
but for it: `Overhears.run`. Over a stream this holds of sites whose bytes differ by frames whose
values are read as other traffic or not at all: `run_noise`.
-/

namespace Bindery

namespace Expectation

/-- Other traffic neither satisfies nor fails the wait. -/
def IgnoresOther (e : Expectation) : Prop := .other ∉ e.accept ∧ .other ∉ e.reject

theorem IgnoresOther.judge {e : Expectation} (h : e.IgnoresOther) {r : Reply}
    (hr : r.tag = .other) : e.judge r = .unrelated := by
  rw [Expectation.judge, hr, if_neg h.1, if_neg h.2]

end Expectation

/-- Whether the steps that wait ignore other traffic. -/
def Step.IgnoresOther : Step → Prop
  | .send _ => True
  | .expect e => e.IgnoresOther

theorem Step.ignoresOther_await {tag : Reply.Tag} (h : tag ≠ .other) :
    (Step.await tag).IgnoresOther := by
  have hreject : Reply.Tag.other ∉ Reply.Tag.failures := by decide
  exact ⟨by simpa using h.symm, hreject⟩

namespace Exchange

def isOther : Exchange → Bool
  | .received r => r.tag = .other
  | _ => false

end Exchange

/-- A transcript without the other traffic. -/
def quiet (notes : List Exchange) : List Exchange := notes.filter (!·.isOther)

theorem quiet_append (xs ys : List Exchange) : quiet (xs ++ ys) = quiet xs ++ quiet ys :=
  List.filter_append ..

theorem quiet_concat {xs ys : List Exchange} (h : quiet xs = quiet ys) (zs : List Exchange) :
    quiet (xs ++ zs) = quiet (ys ++ zs) := by
  rw [quiet_append, quiet_append, h]

theorem quiet_other {r : Reply} (h : r.tag = .other) : quiet [.received r] = [] := by
  simp [quiet, Exchange.isOther, h]

theorem commands_quiet (notes : List Exchange) : commands (quiet notes) = commands notes :=
  filterMap_filter_of_none (fun x hx => by cases x <;> first | rfl | cases hx) notes

variable {ρ : Type}

/-- Two outcomes at related sites are the same. -/
def Agree {α : Type} (R : Site ρ → Site ρ → Prop) (a b : Site ρ × α) : Prop :=
  ∃ s s' x, a = (s, x) ∧ b = (s', x) ∧ R s s'

theorem agree {α : Type} {R : Site ρ → Site ρ → Prop} {s s' : Site ρ} (h : R s s') (x : α) :
    Agree R (s, x) (s', x) := ⟨s, s', x, rfl, rfl, h⟩

/-- Of two related sites the second one hears what the first one hears, in the same order, and
perhaps other traffic in between; all else is the same at both. -/
structure Overhears (tr : Transport ρ) (R : Site ρ → Site ρ → Prop) : Prop where
  storage {s s' : Site ρ} : R s s' → s'.storage = s.storage
  stopped {s s' : Site ρ} : R s s' → s'.stopped = s.stopped
  keep {s s' : Site ρ} : R s s' → ∀ storage, R { s with storage } { s' with storage }
  meanwhile {s s' : Site ρ} : R s s' → R (tr.meanwhile s) (tr.meanwhile s')
  send {s s' : Site ρ} : R s s' → ∀ c, Agree R (tr.send c s) (tr.send c s')
  receive {s s' : Site ρ} : R s s' →
    (∃ s₁ r, tr.receive s' = (s₁, .ok r) ∧ r.tag = .other ∧ R s s₁)
      ∨ Agree R (tr.receive s) (tr.receive s')

/-- The sites are related, and so are their transcripts but for other traffic. -/
def Quietly (R : Site ρ → Site ρ → Prop) (s s' : Site (ρ × List Exchange)) : Prop :=
  R s.bare s'.bare ∧ quiet s.notes = quiet s'.notes

namespace Overhears

variable {tr : Transport ρ} {R : Site ρ → Site ρ → Prop} (h : Overhears tr R)

include h

theorem receive_of_ne {s s' s₁' : Site ρ} {out : Except Halt Reply} (hs : R s s')
    (hr : tr.receive s' = (s₁', out)) (hout : ∀ r, out = .ok r → r.tag ≠ .other) :
    ∃ s₁, tr.receive s = (s₁, out) ∧ R s₁ s₁' := by
  rcases h.receive hs with ⟨s₂, r, hother, htag, -⟩ | ⟨s₁, s₂, out', hr₁, hr₂, hs₁⟩
  · rw [hr] at hother
    exact absurd htag (hout r (Prod.mk.inj hother).2)
  · rw [hr] at hr₂
    obtain ⟨rfl, rfl⟩ := Prod.mk.inj hr₂
    exact ⟨s₁, hr₁, hs₁⟩

theorem expect {e : Expectation} (he : e.IgnoresOther) (s' : Site ρ) :
    ∀ {s : Site ρ}, R s s' → Agree R (tr.expect e s) (tr.expect e s') := by
  have hne : ∀ {r : Reply}, e.judge r ≠ .unrelated →
      ∀ r', Except.ok r = (.ok r' : Except Halt Reply) → r'.tag ≠ .other := by
    rintro r hj _ ⟨⟩ htag
    exact hj (he.judge htag)
  -- The induction is on what the second site hears, which is more.
  induction s' using Transport.expect.induct tr e with
  | case1 s' s₁' halt hr =>
    intro s hs
    obtain ⟨s₁, hr₁, hs₁⟩ := h.receive_of_ne hs hr (by simp)
    rw [Transport.expect, hr₁, Transport.expect, hr]
    exact agree hs₁ _
  | case2 s' s₁' r hr hj =>
    intro s hs
    obtain ⟨s₁, hr₁, hs₁⟩ := h.receive_of_ne hs hr (hne (by simp [hj]))
    rw [Transport.expect, hr₁, Transport.expect, hr]
    simp only [hj]
    exact agree hs₁ _
  | case3 s' s₁' r hr hj =>
    intro s hs
    obtain ⟨s₁, hr₁, hs₁⟩ := h.receive_of_ne hs hr (hne (by simp [hj]))
    rw [Transport.expect, hr₁, Transport.expect, hr]
    simp only [hj]
    exact agree hs₁ _
  | case4 s' s₁' r hr hj ih =>
    intro s hs
    have hskip : ∀ {s s₁ : Site ρ}, tr.receive s = (s₁, .ok r) → tr.expect e s = tr.expect e s₁ := by
      intro s s₁ hr
      rw [Transport.expect, hr]
      simp only [hj]
    rw [hskip hr]
    rcases h.receive hs with ⟨s₂, r', hother, -, hs₂⟩ | ⟨s₁, s₂, out, hr₁, hr₂, hs₁⟩
    · rw [hr] at hother
      obtain ⟨rfl, -⟩ := Prod.mk.inj hother
      exact ih hs₂
    · rw [hr] at hr₂
      obtain ⟨rfl, rfl⟩ := Prod.mk.inj hr₂
      rw [hskip hr₁]
      exact ih hs₁

theorem perform : ∀ {steps : List Step}, (∀ st ∈ steps, st.IgnoresOther) →
    ∀ {s s' : Site ρ}, R s s' → Agree R (tr.perform steps s) (tr.perform steps s')
  | [], _, _, _, hs => agree hs _
  | .send c :: steps, hi, s, s', hs => by
    obtain ⟨-, hr⟩ := List.forall_mem_cons.1 hi
    obtain ⟨s₁, s₁', out, hc, hc', hs₁⟩ := h.send hs c
    rw [Transport.perform, hc, Transport.perform, hc']
    rcases out with e | _
    · exact agree hs₁ _
    · exact perform hr hs₁
  | .expect e :: steps, hi, s, s', hs => by
    obtain ⟨he, hr⟩ := List.forall_mem_cons.1 hi
    obtain ⟨s₁, s₁', out, hw, hw', hs₁⟩ := h.expect he s' hs
    rw [Transport.perform, hw, Transport.perform, hw']
    rcases out with halt | r
    · exact agree hs₁ _
    obtain ⟨s₂, s₂', rest, hp, hp', hs₂⟩ := perform hr hs₁
    simp only [hp, hp']
    rcases rest with halt | rs <;> exact agree hs₂ _

theorem recorded : Overhears tr.recorded (Quietly R) where
  storage hs := h.storage hs.1
  stopped hs := h.stopped hs.1
  keep hs storage := ⟨h.keep hs.1 storage, hs.2⟩
  meanwhile {s s'} hs := by
    have hstill := h.meanwhile hs.1
    refine ⟨hstill, ?_⟩
    show quiet (s.notes ++ [.looked (tr.meanwhile s.bare).stopped])
      = quiet (s'.notes ++ [.looked (tr.meanwhile s'.bare).stopped])
    rw [h.stopped hstill]
    exact quiet_concat hs.2 _
  send {s s'} hs c := by
    obtain ⟨s₁, s₁', out, hc, hc', hs₁⟩ := h.send hs.1 c
    show Agree _ (Transport.noteSent c s.notes (tr.send c s.bare))
      (Transport.noteSent c s'.notes (tr.send c s'.bare))
    rw [hc, hc']
    rcases out with e | _ <;> exact agree ⟨hs₁, quiet_concat hs.2 _⟩ _
  receive {s s'} hs := by
    show (∃ s₁ r, Transport.noteReceived s'.notes (tr.receive s'.bare) = (s₁, .ok r) ∧ _)
      ∨ Agree _ (Transport.noteReceived s.notes (tr.receive s.bare))
        (Transport.noteReceived s'.notes (tr.receive s'.bare))
    rcases h.receive hs.1 with ⟨s₁, r, hr, htag, hs₁⟩ | ⟨s₁, s₁', out, hr, hr', hs₁⟩
    · refine .inl ⟨s₁.note (s'.notes ++ [.received r]), r, by rw [hr]; rfl, htag, hs₁, ?_⟩
      show quiet s.notes = quiet (s'.notes ++ [.received r])
      rw [quiet_append, quiet_other htag, List.append_nil, hs.2]
    · rw [hr, hr']
      rcases out with halt | r <;> exact .inr (agree ⟨hs₁, quiet_concat hs.2 _⟩ _)

end Overhears

/-- Two outcomes of a task are the same, at related sites. -/
def AgreeTask {α : Type} (R : Site ρ → Site ρ → Prop) (a b : Task × Site ρ × α) : Prop :=
  ∃ t s s' x, a = (t, s, x) ∧ b = (t, s', x) ∧ R s s'

theorem agreeTask {α : Type} {R : Site ρ → Site ρ → Prop} {s s' : Site ρ} (h : R s s') (t : Task)
    (x : α) : AgreeTask R (t, s, x) (t, s', x) := ⟨t, s, s', x, rfl, rfl, h⟩

namespace Task

theorem steps_ignoreOther (t : Task) (m : Record) (source : ByteArray) :
    ∀ st ∈ t.steps m source, st.IgnoresOther := by
  simp only [steps, List.forall_mem_cons]
  exact ⟨trivial, trivial, trivial, Step.ignoresOther_await (by decide), trivial,
    Step.ignoresOther_await (by decide), by simp⟩

theorem ask_ignoresOther (c : Command) (tag : Reply.Tag) (h : tag ≠ .other) :
    ∀ st ∈ [.send c, Step.await tag], st.IgnoresOther := by
  simp only [List.forall_mem_cons]
  exact ⟨trivial, Step.ignoresOther_await h, by simp⟩

end Task

namespace Overhears

variable {tr : Transport ρ} {R : Site ρ → Site ρ → Prop} (h : Overhears tr R)

include h

theorem fetch (t : Task) (m : Record) {s s' : Site ρ} (hs : R s s') :
    Agree R (t.fetch tr m s) (t.fetch tr m s') := by
  obtain ⟨s₁, s₁', out, hp, hp', hs₁⟩ :=
    h.perform (Task.ask_ignoresOther (.get (t.artifact m)) .got (by decide)) hs
  unfold Task.fetch
  rw [hp, hp']
  rcases out with halt | _ | ⟨r, rs⟩
  · exact agree hs₁ _
  · exact agree hs₁ _
  rcases r with _ | _ | ⟨path, content⟩ | _ | _ | _ | _
  case got =>
    simp only [h.storage hs₁]
    rcases s₁.storage.write t.volume (t.artifact m) content with e | storage
    · exact agree hs₁ _
    · exact agree (h.keep hs₁ storage) _
  all_goals exact agree hs₁ _

theorem compileSteps (t : Task) (m : Record) {s s' : Site ρ} (hs : R s s') :
    Agree R (t.compileSteps tr m s) (t.compileSteps tr m s') := by
  unfold Task.compileSteps
  rw [h.storage hs]
  rcases m.volume with _ | v
  · exact agree hs _
  simp only []
  rcases s.storage.read v m.physical with e | source
  · exact agree hs _
  obtain ⟨s₁, s₁', out, hp, hp', hs₁⟩ := h.perform (t.steps_ignoreOther m source) hs
  simp only [hp, hp']
  rcases out with halt | rs
  · exact agree hs₁ _
  simp only []
  split_ifs
  · exact agree hs₁ _
  · exact h.fetch t m hs₁

theorem compile (t : Task) (m : Record) {s s' : Site ρ} (hs : R s s') :
    AgreeTask R (t.compile tr m s) (t.compile tr m s') := by
  unfold Task.compile
  obtain ⟨s₁, s₁', out, hc, hc', hs₁⟩ :=
    h.compileSteps (Task.emit { t with infiles := t.infiles ++ [m] } (.compiling m.physical)) m hs
  simp only [hc, hc']
  rcases out with (e | _) | _
  · simp only [h.storage hs₁]
    exact agreeTask hs₁ _ _
  · exact agreeTask hs₁ _ _
  · exact agreeTask hs₁ _ _

theorem compileAll : ∀ (order : List Record) (t : Task) {s s' : Site ρ}, R s s' →
    AgreeTask R (t.compileAll tr order s) (t.compileAll tr order s')
  | [], t, _, _, hs => agreeTask hs t _
  | m :: r, t, s, s', hs => by
    have hstill := h.meanwhile hs
    simp only [Task.compileAll, h.stopped hstill]
    split_ifs
    · exact agreeTask hstill _ _
    · obtain ⟨t₁, s₁, s₁', out, hc, hc', hs₁⟩ := h.compile t m hstill
      rw [hc, hc']
      rcases out with halt | _
      · exact agreeTask hs₁ _ _
      · exact compileAll r t₁ hs₁
    · exact compileAll r t hstill

theorem loadPackages (packages : List String) {s s' : Site ρ} (hs : R s s') :
    Agree R (Task.loadPackages tr packages s) (Task.loadPackages tr packages s') := by
  unfold Task.loadPackages
  split_ifs
  · exact agree hs _
  · exact h.perform (Task.ask_ignoresOther _ .packagesLoaded (by decide)) hs

theorem build (t : Task) {s s' : Site ρ} (hs : R s s') :
    AgreeTask R (t.build tr s) (t.build tr s') := by
  unfold Task.build
  rw [h.storage hs]
  rcases t.input.plan t.resolve s.storage with e | plan
  · exact agreeTask hs _ _
  obtain ⟨s₁, s₁', out, hl, hl', hs₁⟩ := h.loadPackages plan.external.toList hs
  simp only [hl, hl']
  rcases out with halt | rs
  · exact agreeTask hs₁ _ _
  · exact h.compileAll plan.order t hs₁

theorem finish (t : Task) (name : Option String) {s s' : Site ρ} (hs : R s s') :
    AgreeTask R (t.finish name s) (t.finish name s') := by
  unfold Task.finish
  rw [h.storage hs]
  rcases t.deliver s.storage name with ⟨t₁, e | p⟩ <;> exact agreeTask hs _ _

/-- A run does not notice what a site hears of other traffic. -/
theorem run (t : Task) (name : Option String) {s s' : Site ρ} (hs : R s s') :
    AgreeTask R (t.run tr name s) (t.run tr name s') := by
  have hstill := h.meanwhile hs
  simp only [Task.run, h.stopped hstill]
  split_ifs
  · exact h.finish _ name hstill
  · obtain ⟨t₁, s₁, s₁', out, hb, hb', hs₁⟩ := h.build { t with phase := .running } hstill
    rw [hb, hb']
    rcases out with (e | _) | _
    · exact agreeTask hs₁ _ _
    · exact agreeTask hs₁ _ _
    · exact h.finish _ name hs₁

end Overhears

/-- The value is read as other traffic or as no reply at all. -/
def IsNoise (v : Json) : Prop := ∀ r, Reply.ofJson v = .ok r → r.tag = .other

theorem IsNoise.tag_receive {v : Json} (h : IsNoise v) : (Reply.receive v).tag = .other := by
  unfold Reply.receive
  split
  · exact h _ ‹_›
  · unfold Reply.untyped
    split <;> rfl

theorem Frame.isFrame_message {v : Json} (h : (Frame.textBytes v.compress).length ≤ Frame.limit)
    (hread : Json.parse v.compress = .ok v) : Frame.IsFrame (Carrier.stream.message v) v := by
  have hencode := Frame.encode_ok h
  have hmessage : Carrier.stream.message v = (Frame.encode v).toOption.getD [] := rfl
  rw [hmessage, hencode]
  exact Frame.isFrame_encode h hencode hread

/-- The second bytes are the first ones with frames of noise put in, each before a whole frame or
where no whole frame follows any more. -/
inductive Noisy : List UInt8 → List UInt8 → Prop where
  | same (bs : List UInt8) : Noisy bs bs
  | noise {f bs bs' : List UInt8} {v : Json} : Frame.IsFrame f v → IsNoise v → Noisy bs bs' →
      Noisy bs (f ++ bs')
  | frame {f bs bs' : List UInt8} {v : Json} : Frame.IsFrame f v → Noisy bs bs' →
      Noisy (f ++ bs) (f ++ bs')

namespace Peer

variable {σ : Type} (p : Peer σ)

theorem receive_frame {f : List UInt8} {v : Json} (h : Frame.IsFrame f v) (s : Site σ)
    (rest : List UInt8) (ended : Bool) :
    receive (s.reading (f ++ rest) ended) = (s.reading rest ended, .ok (Reply.receive v)) := by
  have htake : Carrier.stream.take (f ++ rest) = .reply (Reply.receive v) rest := by
    show Carrier.takeFrame (f ++ rest) = _
    rw [Carrier.takeFrame, Frame.read_append h]
  have hreceive : Carrier.stream.receive ended (f ++ rest) = (rest, .ok (Reply.receive v)) := by
    rw [Carrier.receive, htake]
  show (s.reading (Carrier.stream.receive ended (f ++ rest)).1 ended,
    (Carrier.stream.receive ended (f ++ rest)).2) = _
  rw [hreceive]

/-- The sites differ only by noise in the bytes that come in. -/
def Noised (ended : Bool) (s s' : Site (Duplex σ)) : Prop :=
  ∃ (s₀ : Site σ) (bs bs' : List UInt8), s = s₀.reading bs ended ∧ s' = s₀.reading bs' ended
    ∧ Noisy bs bs'

theorem overhears (ended : Bool) : Overhears p.transport (Noised ended) where
  storage := by
    rintro _ _ ⟨s, bs, bs', rfl, rfl, -⟩
    rfl
  stopped := by
    rintro _ _ ⟨s, bs, bs', rfl, rfl, -⟩
    rfl
  keep := by
    rintro _ _ ⟨s, bs, bs', rfl, rfl, hn⟩ storage
    exact ⟨{ s with storage }, bs, bs', rfl, rfl, hn⟩
  meanwhile := by
    rintro _ _ ⟨s, bs, bs', rfl, rfl, hn⟩
    exact ⟨p.meanwhile s, bs, bs', rfl, rfl, hn⟩
  send := by
    rintro _ _ ⟨s, bs, bs', rfl, rfl, hn⟩ c
    show Agree _ (p.send c (s.reading bs ended)) (p.send c (s.reading bs' ended))
    unfold send
    rcases Frame.encode c.toJson with e | bytes
    · exact agree ⟨s, bs, bs', rfl, rfl, hn⟩ _
    have hpeer : (s.reading bs ended).ofPeer = s ∧ (s.reading bs' ended).ofPeer = s := ⟨rfl, rfl⟩
    simp only [hpeer]
    rcases p.take bytes s with ⟨s₁, fault | _⟩ <;>
      exact agree ⟨s₁, bs, bs', rfl, rfl, hn⟩ _
  receive := by
    rintro _ _ ⟨s, bs, bs', rfl, rfl, hn⟩
    show (∃ s₁ r, receive (s.reading bs' ended) = (s₁, .ok r) ∧ _)
      ∨ Agree _ (receive (s.reading bs ended)) (receive (s.reading bs' ended))
    cases hn with
    | same =>
      exact .inr (agree ⟨s, _, _, rfl, rfl, .same _⟩ (Carrier.stream.receive ended bs).2)
    | noise hf hv hn =>
      exact .inl ⟨_, _, receive_frame hf s _ ended, hv.tag_receive, s, _, _, rfl, rfl, hn⟩
    | frame hf hn =>
      rw [receive_frame hf, receive_frame hf]
      exact .inr (agree ⟨s, _, _, rfl, rfl, hn⟩ _)

end Peer

/-- Frames of noise among the replies change nothing that a run does or leaves. -/
theorem run_noise {σ : Type} (p : Peer σ) (t : Task) (name : Option String) (s : Site σ)
    (ended : Bool) {input noisy : List UInt8} (h : Noisy input noisy) :
    ∃ (t' : Task) (s' : Site σ) (result : Except Halt Project) (rest rest' : List UInt8)
      (notes notes' : List Exchange),
      t.run p.transport name (s.reading input ended) = (t', s'.reading rest ended, result)
      ∧ t.run p.transport name (s.reading noisy ended) = (t', s'.reading rest' ended, result)
      ∧ t.run p.transport.recorded name ((s.reading input ended).note [])
        = (t', (s'.reading rest ended).note notes, result)
      ∧ t.run p.transport.recorded name ((s.reading noisy ended).note [])
        = (t', (s'.reading rest' ended).note notes', result)
      ∧ commands notes = commands notes' ∧ quiet notes = quiet notes' ∧ Noisy rest rest' := by
  obtain ⟨t₁, s₁, result, notes, as, hrun, hrec, -⟩ :=
    Task.run_recorded p.transport t name (s.reading input ended)
  obtain ⟨t₂, s₂, result', notes', as', hrun', hrec', -⟩ :=
    Task.run_recorded p.transport t name (s.reading noisy ended)
  have hstart : Quietly (Peer.Noised ended) ((s.reading input ended).note [])
      ((s.reading noisy ended).note []) := ⟨⟨s, input, noisy, rfl, rfl, h⟩, rfl⟩
  obtain ⟨t', l, l', out, hl, hl', hnoised, hquiet⟩ :=
    (p.overhears ended).recorded.run t name hstart
  obtain ⟨rfl, rfl, rfl⟩ : t₁ = t' ∧ s₁.note notes = l ∧ result = out := by
    simpa [hrec] using hl
  obtain ⟨rfl, rfl, rfl⟩ : t₂ = t₁ ∧ s₂.note notes' = l' ∧ result' = result := by
    simpa [hrec'] using hl'
  obtain ⟨s', rest, rest', hs, hs', hn⟩ := hnoised
  obtain rfl : s₁ = s'.reading rest ended := hs
  obtain rfl : s₂ = s'.reading rest' ended := hs'
  have hquiet : quiet notes = quiet notes' := hquiet
  refine ⟨t₂, s', result', rest, rest', notes, notes', hrun, hrun', hrec, hrec', ?_, hquiet, hn⟩
  rw [← commands_quiet notes, hquiet, commands_quiet]

/-- What a compiler without faults answers when `A` and then `B` are compiled. -/
def mixedReplies : List Json :=
  [.loaded "/lib/A.v", .compiled "/lib/A.vo", .got "/lib/A.vo" "a".toUTF8, .loaded "/lib/B.v",
    .compiled "/lib/B.vo", .got "/lib/B.vo" "b".toUTF8].map Reply.toJson

/-- Before the third answer a value that is no array, and one that has the tag of a reply and not
its argument. -/
def noisyReplies : List Json :=
  mixedReplies.take 2 ++ .null :: .arr [.str "Compiled"] :: mixedReplies.drop 2

def mixedStream (vs : List Json) : List UInt8 := vs.flatMap Carrier.stream.message

def keptSite : Site (List UInt8) := ⟨[], Task.mixedSite.storage, false⟩

theorem run_noise_mixed :
    Noisy (mixedStream mixedReplies) (mixedStream noisyReplies)
      ∧ (Task.mixedTask.run Peer.keeper.transport none
        (keptSite.reading (mixedStream mixedReplies) true)).1.phase = .completed
      ∧ ∃ (t' : Task) (s' : Site (List UInt8)) (result : Except Halt Project)
        (rest rest' : List UInt8) (notes notes' : List Exchange),
        Task.mixedTask.run Peer.keeper.transport none
            (keptSite.reading (mixedStream mixedReplies) true) = (t', s'.reading rest true, result)
          ∧ Task.mixedTask.run Peer.keeper.transport none
              (keptSite.reading (mixedStream noisyReplies) true)
            = (t', s'.reading rest' true, result)
          ∧ Task.mixedTask.run Peer.keeper.transport.recorded none
              ((keptSite.reading (mixedStream mixedReplies) true).note [])
            = (t', (s'.reading rest true).note notes, result)
          ∧ Task.mixedTask.run Peer.keeper.transport.recorded none
              ((keptSite.reading (mixedStream noisyReplies) true).note [])
            = (t', (s'.reading rest' true).note notes', result)
          ∧ commands notes = commands notes' ∧ quiet notes = quiet notes' ∧ Noisy rest rest' := by
  have hframe : ∀ v ∈ noisyReplies, Frame.IsFrame (Carrier.stream.message v) v := by
    have hread : ∀ v ∈ noisyReplies, (Frame.textBytes v.compress).length ≤ Frame.limit
        ∧ Json.parse v.compress = .ok v := by decide +kernel
    exact fun v hv => Frame.isFrame_message (hread v hv).1 (hread v hv).2
  have hnull : IsNoise .null := by
    rintro r ⟨⟩
  have hbare : IsNoise (.arr [.str "Compiled"]) := by
    rintro r ⟨⟩
  have hnoisy : Noisy (mixedStream mixedReplies) (mixedStream noisyReplies) :=
    .frame (hframe (Reply.loaded "/lib/A.v").toJson (by simp [noisyReplies, mixedReplies]))
      (.frame (hframe (Reply.compiled "/lib/A.vo").toJson (by simp [noisyReplies, mixedReplies]))
        (.noise (hframe .null (by simp [noisyReplies])) hnull
          (.noise (hframe (.arr [.str "Compiled"]) (by simp [noisyReplies])) hbare (.same _))))
  exact ⟨hnoisy, by decide +kernel, run_noise Peer.keeper Task.mixedTask none keptSite true hnoisy⟩

end Bindery
