import Bindery.Build.Channel
import Mathlib.Data.List.Forall2

/-!
# What passes in a conversation

A recorded transport writes down all that is sent and received and each look at the flag, and does
otherwise what the transport does. `Awaits` and `Performs` say which transcripts a wait and a
sequence of steps can have, whatever the remote does; `expect_recorded` and `perform_recorded` say
that they have no others. Steps that wait for nothing that reports a failure meet one only at the
end (`Performs.lastOnly`), and say a first part of their commands (`Performs.commands_prefix`).
-/

namespace Bindery

namespace Command

def isInit : Command → Bool
  | .init _ => true
  | _ => false

def isLoadPackages : Command → Bool
  | .loadPackages _ => true
  | _ => false

end Command

/-- What the local side does at a site, or meets there. -/
inductive Exchange where
  | sent (c : Command)
  | unsent (c : Command) (e : Error)
  | received (r : Reply)
  | halted (h : Halt)
  | looked (stopped : Bool)

namespace Exchange

/-- Whether the local side does not go on. -/
def isFailure : Exchange → Bool
  | .unsent _ _ => true
  | .received r => r.isFailure
  | .halted _ => true
  | .sent _ => false
  | .looked _ => false

/-- The command that is sent, if it can be. -/
def command? : Exchange → Option Command
  | .sent c => some c
  | .unsent c _ => some c
  | _ => none

def isLook : Exchange → Bool
  | .looked _ => true
  | _ => false

def isStop : Exchange → Bool
  | .looked stopped => stopped
  | _ => false

def isInit (x : Exchange) : Bool := x.command?.any (·.isInit)

@[simp] theorem isLook_looked (stopped : Bool) : (looked stopped).isLook = true := rfl

@[simp] theorem isInit_looked (stopped : Bool) : (looked stopped).isInit = false := rfl

theorem isStop_of_isLook {x : Exchange} (h : x.isLook = false) : x.isStop = false := by
  cases x <;> simp_all [isLook, isStop]

theorem isLook_of_isInit {x : Exchange} (h : x.isInit = true) : x.isLook = false := by
  cases x <;> first | rfl | simp [isInit, command?] at h

end Exchange

/-- The commands of a transcript. -/
def commands (notes : List Exchange) : List Command := notes.filterMap (·.command?)

@[simp] theorem commands_nil : commands [] = [] := rfl

@[simp] theorem commands_append (xs ys : List Exchange) :
    commands (xs ++ ys) = commands xs ++ commands ys := List.filterMap_append

theorem mem_commands {c : Command} {notes : List Exchange} :
    c ∈ commands notes ↔ ∃ x ∈ notes, x.command? = some c := List.mem_filterMap

/-- What tells nothing of a transcript can be left out of it. -/
theorem filterMap_filter_of_none {α : Type} {keep : Exchange → Bool} {f : Exchange → Option α}
    (h : ∀ x, keep x = false → f x = none) (notes : List Exchange) :
    (notes.filter keep).filterMap f = notes.filterMap f := by
  rw [List.filterMap_filter]
  refine congrArg (List.filterMap · notes) (funext fun x => ?_)
  by_cases hx : keep x = true
  · rw [if_pos hx]
  · rw [if_neg hx, h x (by simpa using hx)]

theorem commands_filter_isLook (notes : List Exchange) :
    commands (notes.filter (!·.isLook)) = commands notes :=
  filterMap_filter_of_none (fun x hx => by cases x <;> first | rfl | cases hx) notes

/-- What satisfies the test stands nowhere but at the end. -/
def LastOnly (p : Exchange → Bool) (notes : List Exchange) : Prop :=
  ∀ before x after, notes = before ++ x :: after → p x = true → after = []

section LastOnly

variable {p : Exchange → Bool}

theorem lastOnly_nil : LastOnly p [] := by
  intro before x after h
  simp at h

theorem lastOnly_cons {x : Exchange} {notes : List Exchange} (hx : p x = false)
    (h : LastOnly p notes) : LastOnly p (x :: notes) := by
  intro before y after he hy
  rcases before with _ | ⟨z, before⟩
  · simp only [List.nil_append, List.cons.injEq] at he
    rw [← he.1, hx] at hy
    simp at hy
  · simp only [List.cons_append, List.cons.injEq] at he
    exact h before y after he.2 hy

theorem lastOnly_singleton (x : Exchange) : LastOnly p [x] := by
  intro before y after he _
  rcases before with _ | ⟨z, before⟩ <;> simp at he
  exact he.2

theorem lastOnly_append : ∀ {xs ys : List Exchange}, (∀ x ∈ xs, p x = false) → LastOnly p ys →
    LastOnly p (xs ++ ys)
  | [], _, _, h => h
  | x :: _, _, hx, h => lastOnly_cons (hx x (by simp))
      (lastOnly_append (fun y hy => hx y (List.mem_cons_of_mem x hy)) h)

theorem lastOnly_of_none {notes : List Exchange} (h : ∀ x ∈ notes, p x = false) :
    LastOnly p notes := by
  simpa using lastOnly_append h (lastOnly_nil (p := p))

end LastOnly

variable {ρ : Type}

namespace Site

/-- The site with a transcript kept at the remote. -/
def note (s : Site ρ) (notes : List Exchange) : Site (ρ × List Exchange) :=
  ⟨(s.remote, notes), s.storage, s.stopped⟩

def bare (s : Site (ρ × List Exchange)) : Site ρ := ⟨s.remote.1, s.storage, s.stopped⟩

def notes (s : Site (ρ × List Exchange)) : List Exchange := s.remote.2

theorem note_injective {s s' : Site ρ} {notes notes' : List Exchange}
    (h : s.note notes = s'.note notes') : s = s' ∧ notes = notes' := by
  cases s
  cases s'
  simp only [note, mk.injEq, Prod.mk.injEq] at h
  obtain ⟨⟨rfl, rfl⟩, rfl, rfl⟩ := h
  exact ⟨rfl, rfl⟩

@[simp] theorem storage_note (s : Site ρ) (notes : List Exchange) :
    (s.note notes).storage = s.storage := rfl

@[simp] theorem stopped_note (s : Site ρ) (notes : List Exchange) :
    (s.note notes).stopped = s.stopped := rfl

end Site

namespace Transport

/-- Writes down what sending gives. -/
def noteSent (c : Command) (notes : List Exchange) :
    Site ρ × Except Error Unit → Site (ρ × List Exchange) × Except Error Unit
  | (s, .ok ()) => (s.note (notes ++ [.sent c]), .ok ())
  | (s, .error e) => (s.note (notes ++ [.unsent c e]), .error e)

/-- Writes down what receiving gives. -/
def noteReceived (notes : List Exchange) :
    Site ρ × Except Halt Reply → Site (ρ × List Exchange) × Except Halt Reply
  | (s, .ok r) => (s.note (notes ++ [.received r]), .ok r)
  | (s, .error h) => (s.note (notes ++ [.halted h]), .error h)

theorem of_noteReceived {notes : List Exchange} {p : Site ρ × Except Halt Reply}
    {s : Site (ρ × List Exchange)} {r : Reply} (h : noteReceived notes p = (s, .ok r)) :
    p = (s.bare, .ok r) := by
  obtain ⟨s', r' | r'⟩ := p
  · simp [noteReceived] at h
  · simp only [noteReceived, Prod.mk.injEq, Except.ok.injEq] at h
    rw [← h.1, h.2]
    rfl

/-- The transport with a transcript of the conversation. -/
def recorded (tr : Transport ρ) : Transport (ρ × List Exchange) where
  send c s := noteSent c s.notes (tr.send c s.bare)
  receive s := noteReceived s.notes (tr.receive s.bare)
  meanwhile s := (tr.meanwhile s.bare).note (s.notes ++ [.looked (tr.meanwhile s.bare).stopped])
  pending s := tr.pending s.bare
  pending_lt h := tr.pending_lt (of_noteReceived h)

variable (tr : Transport ρ)

theorem send_recorded (c : Command) (s : Site ρ) (l : List Exchange) :
    tr.recorded.send c (s.note l) = noteSent c l (tr.send c s) := rfl

theorem receive_recorded (s : Site ρ) (l : List Exchange) :
    tr.recorded.receive (s.note l) = noteReceived l (tr.receive s) := rfl

theorem meanwhile_recorded (s : Site ρ) (l : List Exchange) :
    tr.recorded.meanwhile (s.note l)
      = (tr.meanwhile s).note (l ++ [.looked (tr.meanwhile s).stopped]) := rfl

end Transport

/-- The transcripts of a wait: replies that have nothing to do with it, then what ends it. -/
inductive Awaits (e : Expectation) : List Exchange → Except Halt Reply → Prop where
  | satisfied {r : Reply} : e.judge r = .satisfied → Awaits e [.received r] (.ok r)
  | failed {r : Reply} : e.judge r = .failed →
      Awaits e [.received r] (.error (.failed (.failure r)))
  | halted (h : Halt) : Awaits e [.halted h] (.error h)
  | unrelated {r : Reply} {notes : List Exchange} {out : Except Halt Reply} :
      e.judge r = .unrelated → Awaits e notes out → Awaits e (.received r :: notes) out

/-- The transcripts of steps in order up to a failure. -/
inductive Performs : List Step → List Exchange → Except Halt (List Reply) → Prop where
  | nil : Performs [] [] (.ok [])
  | sent {c : Command} {steps : List Step} {notes : List Exchange}
      {out : Except Halt (List Reply)} :
      Performs steps notes out → Performs (.send c :: steps) (.sent c :: notes) out
  | unsent {c : Command} {steps : List Step} (e : Error) :
      Performs (.send c :: steps) [.unsent c e] (.error (.failed e))
  | awaited {e : Expectation} {steps : List Step} {waited notes : List Exchange} {r : Reply}
      {out : Except Halt (List Reply)} : Awaits e waited (.ok r) → Performs steps notes out →
      Performs (.expect e :: steps) (waited ++ notes) (out.map (r :: ·))
  | halted {e : Expectation} {steps : List Step} {waited : List Exchange} {h : Halt} :
      Awaits e waited (.error h) → Performs (.expect e :: steps) waited (.error h)

namespace Step

/-- The command of a step that sends one. -/
def command? : Step → Option Command
  | .send c => some c
  | .expect _ => none

/-- What a step that waits waits for. -/
def expectation? : Step → Option Expectation
  | .send _ => none
  | .expect e => some e

/-- Whether the step, if it waits, waits for a kind of reply that reports no failure. -/
def IsPlain : Step → Prop
  | .send _ => True
  | .expect e => ∃ tag, tag ∉ Reply.Tag.failures ∧ e = { accept := [tag] }

theorem isPlain_send (c : Command) : (Step.send c).IsPlain := trivial

theorem isPlain_await {tag : Reply.Tag} (h : tag ∉ Reply.Tag.failures) :
    (Step.await tag).IsPlain := ⟨tag, h, rfl⟩

end Step

theorem judge_await (tag : Reply.Tag) (r : Reply) :
    Expectation.judge { accept := [tag] } r
      = if r.tag = tag then .satisfied else if r.isFailure then .failed else .unrelated := by
  simp [Expectation.judge, Reply.isFailure]

/-- A wait ends with the first failure, and sends nothing. -/
theorem Awaits.plain {tag : Reply.Tag} (ht : tag ∉ Reply.Tag.failures) {notes : List Exchange}
    {out : Except Halt Reply} (h : Awaits { accept := [tag] } notes out) :
    commands notes = [] ∧ LastOnly (·.isFailure) notes
      ∧ ((∃ r, out = .ok r) → ∀ x ∈ notes, x.isFailure = false) := by
  induction h with
  | @satisfied r hj =>
    rw [judge_await] at hj
    have hr : r.isFailure = false := by
      split at hj
      · rename_i hr
        simp [Reply.isFailure, hr, ht]
      · split at hj <;> simp at hj
    refine ⟨rfl, lastOnly_singleton _, fun _ x hx => ?_⟩
    simp only [List.mem_singleton] at hx
    rw [hx]
    exact hr
  | failed _ => exact ⟨rfl, lastOnly_singleton _, by simp⟩
  | halted _ => exact ⟨rfl, lastOnly_singleton _, by simp⟩
  | @unrelated r notes out hj _ ih =>
    obtain ⟨hc, hl, hok⟩ := ih
    rw [judge_await] at hj
    have hr : r.isFailure = false := by
      split at hj
      · simp at hj
      · split at hj <;> simp_all
    refine ⟨hc, lastOnly_cons hr hl, fun ho x hx => ?_⟩
    rcases List.mem_cons.1 hx with rfl | hx
    · exact hr
    · exact hok ho x hx

theorem Awaits.isLook_eq_false {e : Expectation} {notes : List Exchange}
    {out : Except Halt Reply} (h : Awaits e notes out) : ∀ x ∈ notes, x.isLook = false := by
  induction h with
  | satisfied _ => simp [Exchange.isLook]
  | failed _ => simp [Exchange.isLook]
  | halted _ => simp [Exchange.isLook]
  | unrelated _ _ ih => exact List.forall_mem_cons.2 ⟨rfl, ih⟩

theorem Awaits.satisfies {e : Expectation} {notes : List Exchange} {out : Except Halt Reply}
    (h : Awaits e notes out) : ∀ r, out = .ok r → e.judge r = .satisfied := by
  induction h with
  | satisfied hj =>
    rintro _ ⟨⟩
    exact hj
  | failed _ => simp
  | halted _ => simp
  | unrelated _ _ ih => exact ih

namespace Performs

variable {steps : List Step} {notes : List Exchange} {out : Except Halt (List Reply)}

/-- A failure is the last that passes; if all steps are taken there is none. -/
theorem lastOnly (h : Performs steps notes out) (hp : ∀ st ∈ steps, st.IsPlain) :
    LastOnly (·.isFailure) notes ∧ ((∃ rs, out = .ok rs) → ∀ x ∈ notes, x.isFailure = false) := by
  induction h with
  | nil => exact ⟨lastOnly_nil, by simp⟩
  | sent _ ih =>
    obtain ⟨hl, hok⟩ := ih fun st hst => hp st (List.mem_cons_of_mem _ hst)
    refine ⟨lastOnly_cons rfl hl, fun ho x hx => ?_⟩
    rcases List.mem_cons.1 hx with rfl | hx
    · rfl
    · exact hok ho x hx
  | unsent e => exact ⟨lastOnly_singleton _, by simp⟩
  | @awaited e _ _ _ _ out hw _ ih =>
    obtain ⟨hl, hok⟩ := ih fun st hst => hp st (List.mem_cons_of_mem _ hst)
    obtain ⟨tag, ht, rfl⟩ := hp (.expect e) List.mem_cons_self
    have hw := (hw.plain ht).2.2 ⟨_, rfl⟩
    refine ⟨lastOnly_append hw hl, fun ho x hx => ?_⟩
    rcases List.mem_append.1 hx with hx | hx
    · exact hw x hx
    · rcases out with h | rs
      · simp [Except.map] at ho
      · exact hok ⟨rs, rfl⟩ x hx
  | @halted e _ _ _ hw =>
    obtain ⟨tag, ht, rfl⟩ := hp (.expect e) List.mem_cons_self
    exact ⟨(hw.plain ht).2.1, by simp⟩

theorem isLook_eq_false (h : Performs steps notes out) : ∀ x ∈ notes, x.isLook = false := by
  induction h with
  | nil => simp
  | sent _ ih => exact List.forall_mem_cons.2 ⟨rfl, ih⟩
  | unsent e => simp [Exchange.isLook]
  | awaited hw _ ih => exact List.forall_mem_append.2 ⟨hw.isLook_eq_false, ih⟩
  | halted hw => exact hw.isLook_eq_false

/-- Steps say their commands in order, and all of them if all are taken. -/
theorem commands_prefix (h : Performs steps notes out) (hp : ∀ st ∈ steps, st.IsPlain) :
    commands notes <+: steps.filterMap (·.command?)
      ∧ ((∃ rs, out = .ok rs) → commands notes = steps.filterMap (·.command?)) := by
  induction h with
  | nil => simp
  | @sent c _ _ _ _ ih =>
    obtain ⟨h1, h2⟩ := ih fun st hst => hp st (List.mem_cons_of_mem _ hst)
    simp only [commands, List.filterMap_cons, Exchange.command?, Step.command?] at h1 h2 ⊢
    exact ⟨List.cons_prefix_cons.2 ⟨rfl, h1⟩, fun ho => by rw [h2 ho]⟩
  | unsent e => simp [commands, Exchange.command?, Step.command?]
  | @awaited e _ _ _ _ out hw _ ih =>
    obtain ⟨h1, h2⟩ := ih fun st hst => hp st (List.mem_cons_of_mem _ hst)
    obtain ⟨tag, ht, rfl⟩ := hp (.expect e) List.mem_cons_self
    rw [commands_append, (hw.plain ht).1]
    refine ⟨h1, fun ho => h2 ?_⟩
    rcases out with h | rs
    · simp [Except.map] at ho
    · exact ⟨rs, rfl⟩
  | @halted e _ _ _ hw =>
    obtain ⟨tag, ht, rfl⟩ := hp (.expect e) List.mem_cons_self
    simp [(hw.plain ht).1]

/-- When all steps are taken, there is a reply for each wait, which satisfies it. -/
theorem replies (h : Performs steps notes out) : ∀ rs, out = .ok rs →
    List.Forall₂ (fun e r => Expectation.judge e r = .satisfied)
      (steps.filterMap (·.expectation?)) rs := by
  induction h with
  | nil =>
    rintro _ ⟨⟩
    exact .nil
  | sent _ ih => exact ih
  | unsent e => simp
  | @awaited e _ _ _ r out hw _ ih =>
    intro rs ho
    rcases out with h | rs'
    · simp [Except.map] at ho
    · simp only [Except.map, Except.ok.injEq] at ho
      subst ho
      exact .cons (hw.satisfies r rfl) (ih rs' rfl)
  | halted _ => simp

theorem send_inv {c : Command} (h : Performs (.send c :: steps) notes out) :
    ∃ x rest, notes = x :: rest ∧ x.command? = some c := by
  cases h with
  | sent _ => exact ⟨_, _, rfl, rfl⟩
  | unsent e => exact ⟨_, _, rfl, rfl⟩

theorem await_inv {e : Expectation} (h : Performs (.expect e :: steps) notes out) :
    ∀ rs, out = .ok rs → ∃ waited rest r more, notes = waited ++ rest ∧ rs = r :: more
      ∧ Awaits e waited (.ok r) ∧ Performs steps rest (.ok more) := by
  cases h with
  | @awaited _ _ _ _ r out hw hs =>
    intro rs ho
    rcases out with halt | more
    · cases ho
    · obtain rfl := Except.ok.inj ho
      exact ⟨_, _, r, more, rfl, rfl, hw, hs⟩
  | halted _ => simp

theorem append {more : List Step} {said : List Exchange} {rs : List Reply}
    (h : Performs steps notes out) (ho : out = .ok rs) {out' : Except Halt (List Reply)}
    (hm : Performs more said out') :
    Performs (steps ++ more) (notes ++ said) (out'.map (rs ++ ·)) := by
  induction h generalizing rs with
  | nil =>
    simp only [Except.ok.injEq] at ho
    subst ho
    rcases out' with h | rs <;> exact hm
  | sent _ ih => exact .sent (ih ho)
  | unsent e => simp at ho
  | @awaited _ _ _ _ r out hw _ ih =>
    rcases out with h | rs'
    · simp [Except.map] at ho
    · simp only [Except.map, Except.ok.injEq] at ho
      subst ho
      have := Performs.awaited hw (ih rfl)
      rw [← List.append_assoc] at this
      rcases out' with h | rs <;> exact this
  | halted _ => simp at ho

/-- What is not taken after a failure does not matter. -/
theorem halt_append {h : Halt} (hs : Performs steps notes out) (ho : out = .error h)
    (more : List Step) : Performs (steps ++ more) notes (.error h) := by
  induction hs with
  | nil => simp at ho
  | sent _ ih => exact .sent (ih ho)
  | unsent e =>
    simp only [Except.error.injEq] at ho
    exact ho ▸ .unsent e
  | @awaited _ _ _ _ _ out hw _ ih =>
    rcases out with h' | rs
    · simp only [Except.map, Except.error.injEq] at ho
      exact .awaited hw (ih (congrArg _ ho))
    · simp [Except.map] at ho
  | halted hw =>
    simp only [Except.error.injEq] at ho
    exact ho ▸ .halted hw

end Performs

namespace Transport

variable (tr : Transport ρ)

theorem expect_recorded (e : Expectation) (s : Site ρ) :
    ∃ notes, Awaits e notes (tr.expect e s).2 ∧ ∀ l, tr.recorded.expect e (s.note l)
      = ((tr.expect e s).1.note (l ++ notes), (tr.expect e s).2) := by
  induction s using Transport.expect.induct tr e with
  | case1 s s' h hr =>
    refine ⟨[.halted h], ?_, fun l => ?_⟩
    · rw [expect, hr]
      exact .halted h
    · rw [expect, expect, receive_recorded, hr]
      rfl
  | case2 s s' r hr hj =>
    refine ⟨[.received r], ?_, fun l => ?_⟩
    · rw [expect, hr]
      simp only [hj]
      exact .satisfied hj
    · rw [expect, expect, receive_recorded, hr]
      simp [noteReceived, hj]
  | case3 s s' r hr hj =>
    refine ⟨[.received r], ?_, fun l => ?_⟩
    · rw [expect, hr]
      simp only [hj]
      exact .failed hj
    · rw [expect, expect, receive_recorded, hr]
      simp [noteReceived, hj]
  | case4 s s' r hr hj ih =>
    obtain ⟨notes, hn, ih⟩ := ih
    have hs : tr.expect e s = tr.expect e s' := by
      rw [expect, hr]
      simp only [hj]
    refine ⟨.received r :: notes, ?_, fun l => ?_⟩
    · rw [hs]
      exact .unrelated hj hn
    · rw [hs, expect, receive_recorded, hr]
      simp [noteReceived, hj, ih]

theorem perform_recorded : ∀ (steps : List Step) (s : Site ρ),
    ∃ notes, Performs steps notes (tr.perform steps s).2 ∧ ∀ l, tr.recorded.perform steps (s.note l)
      = ((tr.perform steps s).1.note (l ++ notes), (tr.perform steps s).2)
  | [], s => ⟨[], .nil, fun l => by simp [perform]⟩
  | .send c :: steps, s => by
    rcases hc : tr.send c s with ⟨s', e | _⟩
    · refine ⟨[.unsent c e], ?_, fun l => ?_⟩
      · rw [perform, hc]
        exact .unsent e
      · rw [perform, perform, send_recorded, hc]
        rfl
    · obtain ⟨notes, hn, ih⟩ := perform_recorded steps s'
      refine ⟨.sent c :: notes, ?_, fun l => ?_⟩
      · rw [perform, hc]
        exact .sent hn
      · rw [perform, perform, send_recorded, hc]
        simp [noteSent, ih]
  | .expect e :: steps, s => by
    obtain ⟨waited, hw, he⟩ := expect_recorded tr e s
    rcases hs : tr.expect e s with ⟨s', h | r⟩ <;> rw [hs] at hw he
    · refine ⟨waited, ?_, fun l => ?_⟩
      · rw [perform, hs]
        exact .halted hw
      · rw [perform, perform, he, hs]
    · obtain ⟨notes, hn, ih⟩ := perform_recorded steps s'
      refine ⟨waited ++ notes, ?_, fun l => ?_⟩
      · rw [perform, hs]
        simp only []
        rcases hp : tr.perform steps s' with ⟨s'', h | rs⟩ <;> rw [hp] at hn
        · exact .awaited hw hn
        · exact .awaited hw hn
      · rw [perform, perform, he, hs]
        simp only [ih]
        rcases tr.perform steps s' with ⟨s'', h | rs⟩ <;> simp

end Transport

end Bindery
