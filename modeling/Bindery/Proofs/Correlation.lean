import Bindery.Proofs.OutputManifest
import Bindery.Rehearsal.Remote

/-!
# Which command a reply answers

A wait takes the first reply of its kind, whatever file the reply names. A compile sequence keeps
one wait open at a time, so if the remote answers commands in the order in which they are sent, and
each once, then what satisfies a wait is the answer to the command before it: `Performs.answered`.
The compile sequences of a run that are completed are then satisfied by replies about their own
files, `run_correlated`; a remote that answers twice has one source taken for another,
`run_miscorrelated`.
-/

namespace Bindery

/-- The kind of reply that answers a command. -/
def Command.answer? : Command → Option Reply.Tag
  | .init _ | .put _ _ => none
  | .load _ => some .loaded
  | .compile _ => some .compiled
  | .get _ => some .got
  | .loadPackages _ => some .packagesLoaded

inductive Answers : Command → Reply → Prop where
  | loaded (path : String) : Answers (.load path) (.loaded path)
  | compiled (path : String) : Answers (.compile path) (.compiled path)
  | got (path : String) (content : ByteArray) : Answers (.get path) (.got path content)
  | packagesLoaded (names : List String) : Answers (.loadPackages names) .packagesLoaded

theorem Answers.answer? {c : Command} {r : Reply} (h : Answers c r) : c.answer? = some r.tag := by
  cases h <;> rfl

/-- A reply that answers a command, rather than to report a failure or be other traffic. -/
def Exchange.answer? : Exchange → Option Reply
  | .received r => if r.tag = .other ∨ r.isFailure = true then none else some r
  | _ => none

/-- The commands of a transcript that ask for an answer. -/
def asked (notes : List Exchange) : List Command :=
  (commands notes).filter (·.answer?.isSome)

def answers (notes : List Exchange) : List Reply := notes.filterMap (·.answer?)

/-- The remote has answered a first part of what it was asked, in the order in which it was asked,
and each command once. -/
def InOrder (notes : List Exchange) : Prop :=
  ∃ cs, cs <+: asked notes ∧ List.Forall₂ Answers cs (answers notes)

section Parts

variable {notes : List Exchange}

theorem asked_append (xs ys : List Exchange) : asked (xs ++ ys) = asked xs ++ asked ys := by
  rw [asked, commands_append, List.filter_append]
  rfl

theorem answers_append (xs ys : List Exchange) : answers (xs ++ ys) = answers xs ++ answers ys :=
  List.filterMap_append

theorem asked_tell {c : Command} (h : c.answer? = none) : asked (.sent c :: notes) = asked notes := by
  simp [asked, commands, Exchange.command?, h]

theorem asked_ask {c : Command} {tag : Reply.Tag} (h : c.answer? = some tag) :
    asked (.sent c :: notes) = c :: asked notes := by
  simp [asked, commands, Exchange.command?, h]

theorem answers_sent (c : Command) : answers (.sent c :: notes) = answers notes := rfl

theorem answers_cons (x : Exchange) :
    answers (x :: notes) = x.answer?.toList ++ answers notes := by
  rcases hx : x.answer? with _ | r <;> simp [answers, hx]

theorem answers_filter_isLook (notes : List Exchange) :
    answers (notes.filter (!·.isLook)) = answers notes :=
  filterMap_filter_of_none (fun x hx => by cases x <;> first | rfl | cases hx) notes

theorem inOrder_filter_isLook : InOrder (notes.filter (!·.isLook)) ↔ InOrder notes := by
  simp only [InOrder, asked, commands_filter_isLook, answers_filter_isLook]

end Parts

/-- Each command that asks for an answer is followed by the wait for it, and there are no other
waits. -/
inductive Paired : List Step → Prop where
  | nil : Paired []
  | tell {c : Command} {steps : List Step} : c.answer? = none → Paired steps →
      Paired (.send c :: steps)
  | ask {c : Command} {tag : Reply.Tag} {steps : List Step} : c.answer? = some tag →
      Paired steps → Paired (.send c :: .await tag :: steps)

theorem Command.tag_of_answer? {c : Command} {tag : Reply.Tag} (h : c.answer? = some tag) :
    tag ∉ Reply.Tag.failures ∧ tag ≠ .other := by
  cases c <;> cases h <;> decide

theorem answer?_received {r : Reply} (h : r.tag ∉ Reply.Tag.failures ∧ r.tag ≠ .other) :
    (Exchange.received r).answer? = some r := by
  simp [Exchange.answer?, Reply.isFailure, h]

theorem eq_of_answer?_received {r u : Reply} (h : (Exchange.received r).answer? = some u) :
    u = r := by
  unfold Exchange.answer? at h
  simp only [] at h
  split_ifs at h
  exact (Option.some.inj h).symm

/-- A wait that is satisfied is so by the last answer that it hears, and by no answer before. -/
theorem Awaits.answers_ok {tag : Reply.Tag} (ht : tag ∉ Reply.Tag.failures ∧ tag ≠ .other)
    {waited : List Exchange} {out : Except Halt Reply}
    (h : Awaits { accept := [tag] } waited out) : ∀ r, out = .ok r →
    ∃ dropped, answers waited = dropped ++ [r] ∧ ∀ u ∈ dropped, u.tag ≠ tag := by
  induction h with
  | @satisfied r hj =>
    rintro _ ⟨⟩
    have hr : r.tag = tag := Reply.tag_of_satisfied hj
    refine ⟨[], ?_, by simp⟩
    simp [answers, answer?_received (hr.symm ▸ ht)]
  | failed _ => simp
  | halted _ => simp
  | @unrelated u notes out hj _ ih =>
    intro r ho
    obtain ⟨dropped, hdropped, hne⟩ := ih r ho
    have hu : u.tag ≠ tag := by
      intro hu
      rw [judge_await, if_pos hu] at hj
      cases hj
    refine ⟨(Exchange.received u).answer?.toList ++ dropped, ?_, fun v hv => ?_⟩
    · rw [answers_cons, hdropped, List.append_assoc]
    · rcases List.mem_append.1 hv with hv | hv
      · rw [eq_of_answer?_received (Option.mem_toList.1 hv)]
        exact hu
      · exact hne v hv

/-- If the remote answers in order, the replies that satisfy steps are the answers to the commands
of the steps, and what follows is answered in order too. -/
theorem Performs.answered {steps : List Step} (hp : Paired steps) :
    ∀ {notes more : List Exchange} {rs : List Reply}, Performs steps notes (.ok rs) →
      InOrder (notes ++ more) → List.Forall₂ Answers (asked notes) rs ∧ InOrder more := by
  induction hp with
  | nil =>
    intro notes more rs h hin
    cases h
    exact ⟨.nil, hin⟩
  | tell hc _ ih =>
    intro notes more rs h hin
    cases h with
    | sent h =>
      rw [asked_tell hc]
      refine ih h ?_
      simpa only [InOrder, List.cons_append, asked_tell hc, answers_sent] using hin
  | @ask c tag steps hc _ ih =>
    intro notes more rs h hin
    cases h with
    | sent h =>
      obtain ⟨waited, rest, r, rs, rfl, rfl, hw, hs⟩ := h.await_inv _ rfl
      have htag := Command.tag_of_answer? hc
      have hsilent : asked waited = [] := by rw [asked, (hw.plain htag.1).1]; rfl
      obtain ⟨dropped, hanswers, hne⟩ := hw.answers_ok htag r rfl
      have hasked : ∀ later, asked (.sent c :: (waited ++ later)) = c :: asked later := by
        intro later
        rw [asked_ask hc, asked_append, hsilent, List.nil_append]
      obtain ⟨cs, hcs, hall⟩ := hin
      rw [List.cons_append, List.append_assoc, hasked] at hcs
      rw [List.cons_append, answers_sent, List.append_assoc, answers_append, hanswers] at hall
      -- The open command is the next one to be answered, so no answer has been dropped.
      obtain rfl : dropped = [] := by
        rcases dropped with _ | ⟨u, dropped⟩
        · rfl
        cases hall with
        | cons hu _ =>
          obtain ⟨rfl, -⟩ := List.cons_prefix_cons.1 hcs
          have hopen := hu.answer?
          rw [hc] at hopen
          exact absurd (Option.some.inj hopen).symm (hne u (by simp))
      cases hall with
      | cons hr hall =>
        obtain ⟨rfl, hprefix⟩ := List.cons_prefix_cons.1 hcs
        obtain ⟨hrest, hmore⟩ := ih hs ⟨_, hprefix, hall⟩
        rw [hasked]
        exact ⟨.cons hr hrest, hmore⟩

variable {ρ : Type}

namespace Attempt

variable (tr : Transport ρ) (t : Task)

/-- The replies satisfy the waits of the compile sequence, which comes to its end. -/
structure SatisfiedBy (a : Attempt ρ) (rs : List Reply) : Prop where
  performs : ∃ source, Task.sourceOf a.site.storage a.record = .ok source
    ∧ Performs (t.steps a.record source ++ t.fetchSteps a.record) a.talk (.ok rs)
  /-- The bytes of the last reply are what is kept of the source. -/
  kept : t.shared = false → ∃ (got : String) (content : ByteArray) (s : Site ρ) (storage : Storage),
    rs.getLast? = some (.got got content)
      ∧ s.storage.write t.volume (t.artifact a.record) content = .ok storage
      ∧ t.compileSteps tr a.record a.site = ({ s with storage }, .ok ())

end Attempt

namespace Task

variable {tr : Transport ρ} {t : Task}

theorem paired_sequence (t : Task) (m : Record) (source : ByteArray) :
    Paired (t.steps m source ++ t.fetchSteps m) := by
  have hfetch : Paired (t.fetchSteps m) := by
    unfold fetchSteps
    split
    · exact .nil
    · exact .ask rfl .nil
  exact .tell rfl (.tell rfl (.ask rfl (.ask rfl hfetch)))

/-- The replies that satisfy a compile sequence are about its own files. -/
def Correlated (t : Task) (m : Record) (rs : List Reply) : Prop :=
  ∃ content, rs = .loaded (t.staged m) :: .compiled (t.artifact m) ::
    if t.shared then [] else [.got (t.artifact m) content]

theorem asked_sequence {m : Record} {source : ByteArray} {talk : List Exchange} {rs : List Reply}
    (h : Performs (t.steps m source ++ t.fetchSteps m) talk (.ok rs)) :
    asked talk = .load (t.staged m) :: .compile (t.artifact m) ::
      if t.shared then [] else [.get (t.artifact m)] := by
  rw [asked, (h.commands_prefix isPlain_sequence).2 ⟨rs, rfl⟩, filterMap_sequence, commandsOf]
  split <;> rfl

theorem correlated_of_answers {m : Record} {rs : List Reply}
    (h : List.Forall₂ Answers (.load (t.staged m) :: .compile (t.artifact m) ::
      if t.shared then [] else [.get (t.artifact m)]) rs) : t.Correlated m rs := by
  unfold Correlated
  cases h with
  | cons hload h =>
    cases hload
    cases h with
    | cons hcompile h =>
      cases hcompile
      split_ifs at h ⊢
      · cases h
        exact ⟨.empty, rfl⟩
      · cases h with
        | cons hget h =>
          cases hget with
          | got _ content =>
            cases h
            exact ⟨content, rfl⟩

theorem compileSteps_performed {m : Record} {s s' : Site ρ} {source : ByteArray} {rs : List Reply}
    (hsource : sourceOf s.storage m = .ok source)
    (hp : tr.perform (t.steps m source) s = (s', .ok rs)) :
    t.compileSteps tr m s = if t.shared then (s', .ok ()) else t.fetch tr m s' := by
  unfold sourceOf at hsource
  rcases hv : m.volume with _ | v <;> rw [hv] at hsource
  · cases hsource
  · have hread : s.storage.read v m.physical = .ok source := hsource
    simp only [compileSteps, hv, hread, hp]

/-- What a compile sequence passes as its steps are taken, before it fetches. -/
theorem talk_of_steps {a : Attempt ρ} (hran : a.Ran tr t) {source : ByteArray}
    {s : Site ρ} {rs : List Reply} (hsource : sourceOf a.site.storage a.record = .ok source)
    (hp : tr.perform (t.steps a.record source) a.site = (s, .ok rs)) :
    ∃ notes, Performs (t.steps a.record source) notes (.ok rs)
      ∧ (if t.shared then (s.note notes, .ok ()) else t.fetch tr.recorded a.record (s.note notes))
        = ((t.compileSteps tr a.record a.site).1.note a.talk, a.outcome tr t) := by
  obtain ⟨notes, hn, hl⟩ := tr.perform_recorded (t.steps a.record source) a.site
  rw [hp] at hn hl
  have hnote : sourceOf (a.site.note []).storage a.record = .ok source := hsource
  exact ⟨notes, hn, (compileSteps_performed hnote (hl [])).symm.trans (hran.recorded [])⟩

/-- A compile sequence that does not halt has been satisfied by some replies. -/
theorem exists_satisfiedBy {a : Attempt ρ} (hran : a.Ran tr t) (h : a.outcome tr t = .ok ()) :
    ∃ rs, a.SatisfiedBy tr t rs := by
  cases completed_of_ok h with
  | @shared source s loaded compiled hshared hsource hp hdone =>
    obtain ⟨notes, hn, htalk⟩ := talk_of_steps hran hsource hp
    rw [if_pos hshared] at htalk
    obtain rfl : notes = a.talk := congrArg (·.1.notes) htalk
    refine ⟨[.loaded loaded, .compiled compiled], ⟨source, hsource, ?_⟩, by simp [hshared]⟩
    rw [fetchSteps, if_pos hshared, List.append_nil]
    exact hn
  | @fetched source content s s' storage loaded compiled got hshared hsource hp hget hw hdone =>
    obtain ⟨notes, hn, htalk⟩ := talk_of_steps hran hsource hp
    obtain ⟨said, hsaid, hl⟩ := tr.perform_recorded [.send (.get (t.artifact a.record)), .await .got] s
    rw [hget] at hsaid hl
    have hfetch : t.fetch tr.recorded a.record (s.note notes)
        = ({ s' with storage }.note (notes ++ said), .ok ()) := by
      simp only [fetch, hl, Site.storage_note, hw]
      rfl
    rw [if_neg (by simp [hshared]), hfetch] at htalk
    have htalk : notes ++ said = a.talk := congrArg (·.1.notes) htalk
    refine ⟨[.loaded loaded, .compiled compiled] ++ [.got got content],
      ⟨source, hsource, ?_⟩, fun _ => ⟨got, content, s', storage, rfl, hw, hdone⟩⟩
    rw [fetchSteps, if_neg (by simp [hshared]), ← htalk]
    exact hn.append rfl hsaid

/-- If the remote answers in order, all compile sequences that do not halt are satisfied by replies
about their own files. -/
theorem correlated_attempts : ∀ {as : List (Attempt ρ)}, (∀ a ∈ as, a.Ran tr t) →
    (∀ a ∈ as.dropLast, a.outcome tr t = .ok ()) → InOrder (as.flatMap (·.talk)) →
    ∀ a ∈ as, ∀ rs, a.SatisfiedBy tr t rs → t.Correlated a.record rs
  | [], _, _, _ => by simp
  | b :: r, hran, hok, hin => by
    have hfirst : ∀ {source : ByteArray} {rs : List Reply},
        Performs (t.steps b.record source ++ t.fetchSteps b.record) b.talk (.ok rs) →
        t.Correlated b.record rs ∧ InOrder (r.flatMap (·.talk)) := by
      intro source rs hp
      obtain ⟨hall, hrest⟩ := hp.answered (t.paired_sequence b.record source) hin
      exact ⟨correlated_of_answers (asked_sequence hp ▸ hall), hrest⟩
    intro a ha rs hrs
    rcases List.mem_cons.1 ha with rfl | ha
    · obtain ⟨source, -, hp⟩ := hrs.performs
      exact (hfirst hp).1
    · rw [List.dropLast_cons_of_ne_nil (List.ne_nil_of_mem ha)] at hok
      obtain ⟨hb, hr⟩ := List.forall_mem_cons.1 hok
      obtain ⟨hranb, hranr⟩ := List.forall_mem_cons.1 hran
      obtain ⟨source, rs', hp⟩ := hranb.compiles.performs_of_ok hb
      exact correlated_attempts hranr hr (hfirst hp).2 a ha rs hrs

theorem Builds.inOrder_talks {planned : Except Error Plan} {loading notes : List Exchange}
    {as : List (Attempt ρ)} {out : Except Halt Unit}
    (h : Builds tr t planned loading as notes out) (hin : InOrder notes) :
    InOrder (as.flatMap (·.talk)) := by
  rw [← inOrder_filter_isLook, h.talks] at hin
  cases h with
  | unplanned _ => exact hin
  | unloaded _ _ _ => exact ⟨[], List.nil_prefix, .nil⟩
  | walked _ hl _ =>
    cases hl with
    | needless _ => exact hin
    | loaded _ hp => exact (hp.answered (.ask rfl .nil) hin).2

/-- What is recorded and kept of a source in a run comes of replies about the source, if the remote
answers in order; in any case it comes of the first replies of their kinds. -/
theorem run_correlated (tr : Transport ρ) (t : Task) (name : Option String) (s : Site ρ) :
    ∃ t' s' result notes as, t.run tr name s = (t', s', result)
      ∧ t.run tr.recorded name (s.note []) = (t', s'.note notes, result)
      ∧ Extends tr t t t' as
      ∧ (∃ loading, notes.filter (!·.isLook) = loading ++ as.flatMap (·.talk))
      ∧ ∀ a ∈ as, a.outcome tr t = .ok () →
        ∃ rs, a.SatisfiedBy tr t rs ∧ (InOrder notes → t.Correlated a.record rs) := by
  obtain ⟨t', s', result, notes, as, hrun, hrec, hx, hnotes⟩ := run_recorded tr t name s
  refine ⟨t', s', result, notes, as, hrun, hrec, hx, ?_⟩
  rcases hnotes with ⟨rfl, rfl⟩ | ⟨loading, walked, out, rfl, hb, -⟩
  · exact ⟨⟨[], rfl⟩, by simp⟩
  refine ⟨⟨loading, hb.talks⟩, fun a ha hok => ?_⟩
  obtain ⟨plan, walked', -, hw⟩ := hb.walk.resolve_left (List.ne_nil_of_mem ha)
  obtain ⟨rs, hrs⟩ := exists_satisfiedBy (hw.ran a ha) hok
  exact ⟨rs, hrs, fun hin =>
    correlated_attempts hw.ran hw.outcome_of_mem_dropLast (hb.inOrder_talks hin) a ha rs hrs⟩

open Rehearsal (Remote Rule)

def rehearsed : Transport (Remote Reply) := Remote.transport Carrier.pair

def rehearsedSite (rules : List (String × List Rule)) : Site (Remote Reply) where
  remote := .new ⟨[], [], rules⟩ none
  storage := mixedSite.storage
  stopped := false

def rehearsedRun (rules : List (String × List Rule)) :
    Task × Site (Remote Reply × List Exchange) × Except Halt Project :=
  mixedTask.run rehearsed.recorded none ((rehearsedSite rules).note [])

theorem run_correlated_mixed :
    InOrder (rehearsedRun []).2.1.notes ∧ (rehearsedRun []).1.phase = .completed
      ∧ ∃ (t' : Task) (s' : Site (Remote Reply)) (result : Except Halt Project)
        (notes : List Exchange) (as : List (Attempt (Remote Reply))),
        mixedTask.run rehearsed none (rehearsedSite []) = (t', s', result)
          ∧ rehearsedRun [] = (t', s'.note notes, result)
          ∧ Extends rehearsed mixedTask mixedTask t' as
          ∧ ∀ a ∈ as, a.outcome rehearsed mixedTask = .ok () →
            ∃ rs, a.SatisfiedBy rehearsed mixedTask rs ∧ mixedTask.Correlated a.record rs := by
  obtain ⟨hphase, hasked, hanswers⟩ : (rehearsedRun []).1.phase = .completed
      ∧ asked (rehearsedRun []).2.1.notes
        = [.load "/lib/A.v", .compile "/lib/A.vo", .get "/lib/A.vo", .load "/lib/B.v",
          .compile "/lib/B.vo", .get "/lib/B.vo"]
      ∧ answers (rehearsedRun []).2.1.notes
        = [.loaded "/lib/A.v", .compiled "/lib/A.vo", .got "/lib/A.vo" "compiled:A".toUTF8,
          .loaded "/lib/B.v", .compiled "/lib/B.vo", .got "/lib/B.vo" "compiled:B".toUTF8] := by
    decide +kernel
  have hin : InOrder (rehearsedRun []).2.1.notes := by
    refine ⟨_, List.prefix_refl _, ?_⟩
    rw [hasked, hanswers]
    exact .cons (.loaded _) (.cons (.compiled _) (.cons (.got _ _) (.cons (.loaded _)
      (.cons (.compiled _) (.cons (.got _ _) .nil)))))
  obtain ⟨t', s', result, notes, as, hrun, hrec, hx, -, hall⟩ :=
    run_correlated rehearsed mixedTask none (rehearsedSite [])
  have hrec : rehearsedRun [] = (t', s'.note notes, result) := hrec
  have hnotes : InOrder notes := by
    rw [hrec] at hin
    exact hin
  refine ⟨hin, hphase, t', s', result, notes, as, hrun, hrec, hx, fun a ha hok => ?_⟩
  obtain ⟨rs, hrs, hcorrelated⟩ := hall a ha hok
  exact ⟨rs, hrs, hcorrelated hnotes⟩

/-- Has the remote answer the commands of `A` once more as it answers the last of them. -/
def twice : List (String × List Rule) :=
  [("Get /lib/A.vo", [{
    send := [Reply.got "/lib/A.vo" "compiled:A".toUTF8, .loaded "/lib/A.v",
      .compiled "/lib/A.vo"].map Reply.toJson
    raw := .empty
    stop := false
    close := false
    usual := true }])]

/-- Late replies about `A` are taken for the compiled `B`: no reply about `B` is received, and what
is kept as compiled from `B` has come from `A`. -/
theorem run_miscorrelated :
    ∃ (t' : Task) (s' : Site (Remote Reply)) (notes : List Exchange),
      mixedTask.run rehearsed none (rehearsedSite twice) = (t', s', .ok mixedResult)
        ∧ rehearsedRun twice = (t', s'.note notes, .ok mixedResult)
        ∧ t'.phase = .completed
        ∧ t'.outfiles.map (·.physical) = ["/lib/A.vo", "/lib/B.vo"]
        ∧ answers notes = [.loaded "/lib/A.v", .compiled "/lib/A.vo",
          .got "/lib/A.vo" "compiled:A".toUTF8, .loaded "/lib/A.v", .compiled "/lib/A.vo",
          .got "/lib/A.vo" "compiled:A".toUTF8]
        ∧ s'.storage.read mixedOutput "/lib/B.vo" = .ok "compiled:A".toUTF8
        ∧ ∀ rs, rs.Sublist (answers notes) →
          ¬ mixedTask.Correlated ⟨some mixedVolume, ["B"], "/src/B.v", some "p"⟩ rs := by
  obtain ⟨t', s', result, notes, as, hrun, hrec, -⟩ :=
    run_recorded rehearsed mixedTask none (rehearsedSite twice)
  have hrec : rehearsedRun twice = (t', s'.note notes, result) := hrec
  obtain ⟨hresult, hphase, hfiles, hanswers, hkept⟩ :
      (rehearsedRun twice).2.2 = .ok mixedResult ∧ (rehearsedRun twice).1.phase = .completed
        ∧ (rehearsedRun twice).1.outfiles.map (·.physical) = ["/lib/A.vo", "/lib/B.vo"]
        ∧ answers (rehearsedRun twice).2.1.notes
          = [.loaded "/lib/A.v", .compiled "/lib/A.vo", .got "/lib/A.vo" "compiled:A".toUTF8,
            .loaded "/lib/A.v", .compiled "/lib/A.vo", .got "/lib/A.vo" "compiled:A".toUTF8]
        ∧ (rehearsedRun twice).2.1.storage.read mixedOutput "/lib/B.vo"
          = .ok "compiled:A".toUTF8 := by decide +kernel
  rw [hrec] at hresult hphase hfiles hanswers hkept
  obtain rfl : result = .ok mixedResult := hresult
  have hanswers : answers notes
      = [.loaded "/lib/A.v", .compiled "/lib/A.vo", .got "/lib/A.vo" "compiled:A".toUTF8,
        .loaded "/lib/A.v", .compiled "/lib/A.vo", .got "/lib/A.vo" "compiled:A".toUTF8] := hanswers
  refine ⟨t', s', notes, hrun, hrec, hphase, hfiles, hanswers, hkept, fun rs hrs hcorrelated => ?_⟩
  have hstaged : mixedTask.staged ⟨some mixedVolume, ["B"], "/src/B.v", some "p"⟩ = "/lib/B.v" := by
    decide +kernel
  obtain ⟨content, rfl⟩ := hcorrelated
  have hloaded := hrs.subset List.mem_cons_self
  rw [hstaged, hanswers] at hloaded
  revert hloaded
  decide

end Task

end Bindery
