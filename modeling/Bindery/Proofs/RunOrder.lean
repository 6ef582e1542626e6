import Bindery.Proofs.PlanOrder
import Bindery.Proofs.RunTrace

/-!
# The order of a run

A compile sequence that does not halt is completed: its waits are satisfied and what it fetches is
kept, `completed_of_ok`. A run sets a module only when it has completed the compile sequences of all
sources that the module requires: `run_requires`.
-/

namespace Bindery

variable {ρ : Type}

namespace Attempt

variable (tr : Transport ρ) (t : Task)

/-- The compile sequence has come to its end: the source has been loaded and compiled and, without
a shared volume, the compiled file has been fetched and written. -/
inductive Completed (a : Attempt ρ) : Prop where
  | shared {source : ByteArray} {s : Site ρ} {loaded compiled : String} : t.shared = true →
      Task.sourceOf a.site.storage a.record = .ok source →
      tr.perform (t.steps a.record source) a.site = (s, .ok [.loaded loaded, .compiled compiled]) →
      t.compileSteps tr a.record a.site = (s, .ok ()) → Completed a
  | fetched {source content : ByteArray} {s s' : Site ρ} {storage : Storage}
      {loaded compiled got : String} : t.shared = false →
      Task.sourceOf a.site.storage a.record = .ok source →
      tr.perform (t.steps a.record source) a.site = (s, .ok [.loaded loaded, .compiled compiled]) →
      tr.perform [.send (.get (t.artifact a.record)), .await .got] s
        = (s', .ok [.got got content]) →
      s'.storage.write t.volume (t.artifact a.record) content = .ok storage →
      t.compileSteps tr a.record a.site = ({ s' with storage }, .ok ()) → Completed a

end Attempt

theorem Reply.tag_of_satisfied {tag : Reply.Tag} {r : Reply}
    (h : Expectation.judge { accept := [tag] } r = .satisfied) : r.tag = tag := by
  rw [judge_await] at h
  split at h
  · assumption
  · split at h <;> simp at h

namespace Task

variable {tr : Transport ρ} {t : Task}

theorem perform_replies {steps : List Step} {s s' : Site ρ} {rs : List Reply}
    (h : tr.perform steps s = (s', .ok rs)) :
    List.Forall₂ (fun e r => Expectation.judge e r = .satisfied)
      (steps.filterMap (·.expectation?)) rs := by
  obtain ⟨notes, hp, -⟩ := tr.perform_recorded steps s
  rw [h] at hp
  exact hp.replies rs rfl

theorem steps_replies {m : Record} {source : ByteArray} {s s' : Site ρ} {rs : List Reply}
    (h : tr.perform (t.steps m source) s = (s', .ok rs)) :
    ∃ loaded compiled, rs = [.loaded loaded, .compiled compiled] := by
  have hr := perform_replies h
  clear h
  cases hr with
  | @cons _ r₁ _ _ h₁ hr =>
    cases hr with
    | @cons _ r₂ _ _ h₂ hr =>
      cases hr
      have htag₁ := Reply.tag_of_satisfied h₁
      have htag₂ := Reply.tag_of_satisfied h₂
      cases r₁ <;> cases htag₁
      cases r₂ <;> cases htag₂
      exact ⟨_, _, rfl⟩

theorem fetch_replies {path : String} {s s' : Site ρ} {rs : List Reply}
    (h : tr.perform [.send (.get path), .await .got] s = (s', .ok rs)) :
    ∃ got content, rs = [.got got content] := by
  have hr := perform_replies h
  clear h
  cases hr with
  | @cons _ r _ _ hr hnone =>
    cases hnone
    have htag := Reply.tag_of_satisfied hr
    cases r <;> cases htag
    exact ⟨_, _, rfl⟩

theorem fetch_inv {m : Record} {s s' : Site ρ} (h : t.fetch tr m s = (s', .ok ())) :
    ∃ s₁ got content storage,
      tr.perform [.send (.get (t.artifact m)), .await .got] s = (s₁, .ok [.got got content])
        ∧ s₁.storage.write t.volume (t.artifact m) content = .ok storage
        ∧ s' = { s₁ with storage } := by
  unfold fetch at h
  rcases hp : tr.perform [.send (.get (t.artifact m)), .await .got] s with ⟨s₁, halt | rs⟩ <;>
    rw [hp] at h
  · simp at h
  · obtain ⟨got, content, rfl⟩ := fetch_replies hp
    simp only [] at h
    split at h
    · rename_i storage hw
      simp only [Prod.mk.injEq, and_true] at h
      exact ⟨s₁, got, content, storage, rfl, hw, h.symm⟩
    · simp at h

/-- A compile sequence that does not halt is completed. -/
theorem completed_of_ok {a : Attempt ρ} (h : a.outcome tr t = .ok ()) : a.Completed tr t := by
  rcases hc : t.compileSteps tr a.record a.site with ⟨s', out⟩
  have hout : out = .ok () := by
    rw [Attempt.outcome, hc] at h
    exact h
  subst hout
  have hsteps := hc
  unfold compileSteps at hc
  split at hc
  · simp at hc
  · rename_i v hv
    split at hc
    · simp at hc
    · rename_i source hread
      have hsource : sourceOf a.site.storage a.record = .ok source := by
        simp only [sourceOf, hv, hread]
      split at hc
      · simp at hc
      · rename_i s₁ rs hp
        obtain ⟨loaded, compiled, rfl⟩ := steps_replies hp
        split at hc
        · rename_i hshared
          simp only [Prod.mk.injEq, and_true] at hc
          subst hc
          exact .shared hshared hsource hp hsteps
        · rename_i hshared
          obtain ⟨s₂, got, content, storage, hget, hw, rfl⟩ := fetch_inv hc
          exact .fetched (by simpa using hshared) hsource hp hget hw hsteps

theorem Course.append_inv : ∀ {as bs : List (Attempt ρ)} {s s' : Site ρ},
    Course tr t s (as ++ bs) s' → ∃ s₁, Course tr t s as s₁ ∧ Course tr t s₁ bs s' := by
  intro as bs s s' h
  generalize has : as ++ bs = all at h
  induction h generalizing as with
  | refl s =>
    obtain ⟨rfl, rfl⟩ := List.append_eq_nil_iff.1 has
    exact ⟨s, .refl s, .refl s⟩
  | looked _ ih =>
    obtain ⟨s₁, h₁, h₂⟩ := ih has
    exact ⟨s₁, .looked h₁, h₂⟩
  | @attempted a s' all h ih =>
    rcases as with _ | ⟨b, as⟩
    · simp only [List.nil_append] at has
      subst has
      exact ⟨a.site, .refl _, .attempted h⟩
    · simp only [List.cons_append, List.cons.injEq] at has
      obtain ⟨rfl, has⟩ := has
      obtain ⟨s₁, h₁, h₂⟩ := ih has
      exact ⟨s₁, .attempted h₁, h₂⟩

/-- Only the first of what passes in a compile sequence sets a module, so what sets one divides the
attempts. -/
theorem exists_attempt_of_init {x : Exchange} {after : List Exchange} (hx : x.isInit = true) :
    ∀ {as : List (Attempt ρ)} {before : List Exchange}, (∀ a ∈ as, a.Ran tr t) →
      as.flatMap (·.talk) = before ++ x :: after →
      ∃ done a rest, as = done ++ a :: rest ∧ before = done.flatMap (·.talk)
        ∧ a.talk.head? = some x
  | [], before, _, h => by simp at h
  | a :: r, before, hran, h => by
    obtain ⟨ha, hr⟩ := List.forall_mem_cons.1 hran
    rw [List.flatMap_cons] at h
    rcases append_eq_append_cons h with ⟨own, htalk, -⟩ | ⟨later, hbefore, hlater⟩
    · rcases before with _ | ⟨z, before⟩
      · exact ⟨[], a, r, rfl, rfl, by rw [htalk]; rfl⟩
      · have hinit := ha.compiles.init z (before ++ x :: own) htalk x (by simp)
        rw [hx] at hinit
        cases hinit
    · obtain ⟨done, b, rest, rfl, rfl, hb⟩ := exists_attempt_of_init hx hr hlater
      exact ⟨a :: done, b, rest, rfl, hbefore, hb⟩

/-- What precedes the exchange that begins the attempt `a`, from where a run starts to compile:
the attempts `done`, which are completed. -/
structure Precedes (tr : Transport ρ) (t : Task) (start : Site ρ) (before : List Exchange)
    (x : Exchange) (done : List (Attempt ρ)) (a : Attempt ρ) : Prop where
  course : ∃ s', Course tr t start (done ++ [a]) s'
  ran : ∀ b ∈ done ++ [a], b.Ran tr t
  /-- Apart from the looks at the flag, their talk has passed, after the loading of packages. -/
  talks : ∃ loading : List Exchange, (∀ y ∈ loading, y.isInit = false)
    ∧ before.filter (!·.isLook) = loading ++ done.flatMap (·.talk)
  begins : a.talk.head? = some x
  completed : ∀ b ∈ done, b.Completed tr t

theorem Builds.precedes {planned : Except Error Plan} {loading notes before after : List Exchange}
    {as : List (Attempt ρ)} {out : Except Halt Unit} {x : Exchange} {s : Site ρ}
    (h : Builds tr t planned loading as notes out)
    (hcourse : ∀ plan, planned = .ok plan →
      ∃ s', Course tr t (loadPackages tr plan.external.toList s).1 as s')
    (hn : notes = before ++ x :: after) (hx : x.isInit = true) :
    ∃ plan done a, planned = .ok plan
      ∧ Precedes tr t (loadPackages tr plan.external.toList s).1 before x done a
      ∧ done.map (·.record) ++ [a.record] <+: plan.order.filter (·.isSource) := by
  have hx' : x.isLook = false := Exchange.isLook_of_isInit hx
  have htalks := h.talks
  rw [hn, List.filter_append, List.filter_cons_of_pos (by simp [hx'])] at htalks
  obtain ⟨later, hbefore, hlater⟩ : ∃ later, before.filter (!·.isLook) = loading ++ later
      ∧ as.flatMap (·.talk) = later ++ x :: after.filter (!·.isLook) := by
    rcases append_eq_append_cons htalks.symm with ⟨own, hloading, -⟩ | hlate
    · have hinit := h.not_init_loading x (by rw [hloading]; simp)
      rw [hx] at hinit
      cases hinit
    · exact hlate
  rcases h.walk with rfl | ⟨plan, walked, hplan, hw⟩
  · simp at hlater
  obtain ⟨done, a, rest, rfl, rfl, ha⟩ := exists_attempt_of_init hx hw.ran hlater
  have hsplit : done ++ a :: rest = done ++ [a] ++ rest := by simp
  have hfirst : done ++ [a] ⊆ done ++ a :: rest := hsplit ▸ List.subset_append_left _ _
  obtain ⟨s', hs'⟩ := hcourse plan hplan
  rw [hsplit] at hs'
  obtain ⟨s₁, hs₁, -⟩ := hs'.append_inv
  refine ⟨plan, done, a, hplan, ⟨⟨s₁, hs₁⟩, fun b hb => hw.ran b (hfirst hb),
    ⟨loading, h.not_init_loading, hbefore⟩, ha, fun b hb => ?_⟩, ?_⟩
  · refine completed_of_ok (hw.outcome_of_mem_dropLast b ?_)
    rw [List.dropLast_append_cons]
    exact List.mem_append_left _ hb
  · refine List.IsPrefix.trans ?_ hw.records_prefix
    rw [hsplit]
    simp

/-- When a run sets a module, it has completed the compile sequences of all listed sources of each
name that a source of that name requires. -/
theorem run_requires (tr : Transport ρ) (input : Project) (root : String) (legacy : Bool)
    (volume : Volume) (shared : Bool) (name : Option String) (s : Site ρ) :
    let t := Task.new input root legacy volume shared
    let st := (tr.meanwhile s).storage
    ∃ t' s' result notes, t.run tr name s = (t', s', result)
      ∧ t.run tr.recorded name (s.note []) = (t', s'.note notes, result)
      ∧ ∀ before x after n, notes = before ++ x :: after → x.command? = some (.init n) →
        ∃ plan done a, input.plan Plan.ofSources st = .ok plan ∧ a.record.dotted = n
          ∧ Precedes tr t (loadPackages tr plan.external.toList (tr.meanwhile s)).1 before x done a
          ∧ ∀ d, Plan.Requires st input.search (input.modules st) d n →
            (done.map (·.record)).filter (·.dotted = d)
              = ((input.modules st).filter (·.isSource)).filter (·.dotted = d) := by
  intro t st
  obtain ⟨t', s', result, notes, as, hrun, hrec, -, hnotes⟩ := run_recorded tr t name s
  refine ⟨t', s', result, notes, hrun, hrec, fun before x after n hn hx => ?_⟩
  have hinit : x.isInit = true := by simp [Exchange.isInit, hx, Command.isInit]
  rcases hnotes with ⟨rfl, -⟩ | ⟨loading, walked, out, rfl, hb, -, hcourse⟩
  · have hmem : x ∈ [Exchange.looked true] := hn ▸ by simp
    rw [List.mem_singleton.1 hmem] at hinit
    cases hinit
  · rcases before with _ | ⟨y, before⟩
    · obtain ⟨rfl, -⟩ := List.cons.inj hn
      cases hinit
    obtain ⟨rfl, hwalked⟩ := List.cons.inj hn
    obtain ⟨plan, done, a, hplan, hprecedes, hprefix⟩ :=
      hb.precedes (fun plan h => ⟨s', hcourse plan h⟩) hwalked hinit
    obtain ⟨rest, hrest⟩ := List.head?_eq_some_iff.1 hprecedes.begins
    have hcommand := (hprecedes.ran a (by simp)).compiles.talk.2.2.2.2 x rest hrest
    obtain rfl : a.record.dotted = n := by
      rw [hx] at hcommand
      cases hcommand
      rfl
    refine ⟨plan, done, a, hplan, rfl, ⟨hprecedes.course, hprecedes.ran, hprecedes.talks,
      hprecedes.begins, hprecedes.completed⟩, fun d hd => ?_⟩
    exact Plan.filter_of_prefix_order hplan hprefix hd

end Task

end Bindery
