import Bindery.Proofs.Correlation
import Bindery.Proofs.OutputManifest

/-!
# The phase of a run

A run that is not stalled ends failed, completed or stopped: `run_ending`. One that no stop cuts
short has compiled all sources, and one that a stop cuts short has left modules. So the phase tells
how the run has ended, if its output can be put together and a stop leaves a source where it leaves
a module: `run_phase`.
-/

namespace Bindery

variable {ρ : Type} {tr : Transport ρ}

namespace Task

/-- Every source of the plan has been compiled. -/
def AllCompiled (t : Task) (planned : Except Error Plan) : Prop :=
  ∃ plan, planned = .ok plan
    ∧ t.outfiles = (plan.order.filter (·.isSource)).map t.outfile

/-- The sources of a first part of the plan have been compiled. The others have been left, and if
there are none, then a stop has come before the plan was made. -/
def SomeLeft (t : Task) (planned : Except Error Plan) : Prop :=
  ∀ plan, planned = .ok plan → ∃ done left, plan.order = done ++ left
    ∧ t.outfiles = (done.filter (·.isSource)).map t.outfile ∧ (left = [] → done = [])

/-- Where the last module is a source, it is left with the others. -/
theorem SomeLeft.not_allCompiled {t : Task} {planned : Except Error Plan} (h : t.SomeLeft planned)
    (hlast : ∀ plan, planned = .ok plan →
      ∃ front m, plan.order = front ++ [m] ∧ m.isSource = true) : ¬ t.AllCompiled planned := by
  rintro ⟨plan, hplan, hall⟩
  obtain ⟨done, left, horder, hout, hnil⟩ := h plan hplan
  obtain ⟨front, m, hm, hsource⟩ := hlast plan hplan
  have hnone : left.filter (·.isSource) = [] := by
    have hlen := congrArg List.length (hall.symm.trans hout)
    rw [horder, List.filter_append, List.length_map, List.length_map, List.length_append] at hlen
    exact List.length_eq_zero_iff.1 (by omega)
  rcases List.eq_nil_or_concat' left with rfl | ⟨init, last, rfl⟩
  · rw [horder, hnil rfl] at hm
    simp at hm
  · rw [hm, ← List.append_assoc] at horder
    obtain ⟨-, hlast⟩ := List.append_inj' horder rfl
    obtain rfl : m = last := by simpa using hlast
    have hmem : m ∈ (init ++ [m]).filter (·.isSource) := List.mem_filter.2 ⟨by simp, hsource⟩
    rw [hnone] at hmem
    cases hmem

/-- How a run ends. -/
inductive Ending (planned : Except Error Plan) (name : Option String) :
    Task → Site ρ → Except Halt Project → Prop where
  | failed {t : Task} {s : Site ρ} (e : Error) (hp : t.phase = .failed) :
    Ending planned name t s (.error (.failed e))
  | stalled {t : Task} {s : Site ρ} : Ending planned name t s (.error .stalled)
  | completed {t : Task} {s : Site ρ} (hp : t.phase = .completed) (hc : t.AllCompiled planned) :
    Ending planned name t s ((t.outputProject s.storage name).mapError .failed)
  | stopped {t : Task} {s : Site ρ} (hp : t.phase = .stopped) (hs : s.stopped = true)
    (hl : t.SomeLeft planned) :
    Ending planned name t s ((t.outputProject s.storage name).mapError .failed)

theorem run_ending {t t' : Task} {name : Option String} {s s' : Site ρ}
    {result : Except Halt Project} (ho : t.outfiles = [])
    (h : t.run tr name s = (t', s', result)) :
    Ending (t.input.plan t.resolve (tr.meanwhile s).storage) name t' s' result := by
  cases run_eq_iff.1 h with
  | stopped hstop hr =>
    rw [finish_eq] at hr
    cases hr
    exact .stopped rfl hstop fun plan _ => ⟨[], plan.order, rfl, ho, fun _ => rfl⟩
  | failed _ _ => exact .failed _ rfl
  | stalled _ _ => exact .stalled
  | @built t₁ s₁ _ _ hb hr =>
    obtain ⟨plan, done, left, hplan, horder, hleaves⟩ := build_ok hb
    have hout : t₁.outfiles = (done.filter (·.isSource)).map t₁.outfile := by
      rw [hleaves.outfiles, hleaves.alike.outfile_eq]
      simp only [ho, List.nil_append]
    rw [finish_eq] at hr
    cases hr
    obtain ⟨rfl, hphase⟩ | ⟨hleft, hphase, hstopped⟩ := hleaves.ends
    · refine .completed (if_pos hphase) ⟨plan, hplan, ?_⟩
      rw [List.append_nil] at horder
      rw [horder]
      exact hout
    · have hkept : (if t₁.phase = .running then .completed else t₁.phase) = Phase.stopped := by
        rw [hphase]
        rfl
      refine .stopped hkept hstopped fun plan' hplan' => ?_
      obtain rfl : plan = plan' := Except.ok.inj (hplan.symm.trans hplan')
      exact ⟨done, left, horder, hout, fun hnil => absurd hnil hleft⟩

/-- What the phase tells after a run of a new task that returns: it has failed exactly if the run
gives an error, it is completed exactly if there is an output and every source of the plan has been
compiled, and it is stopped exactly if there is an output, a stop has been asked for and not every
source has been compiled. The output has to be put together without an error and, where a stop has
been asked for, the last module of the plan has to be a source. -/
theorem run_phase {input : Project} {resolve : Resolver} {root : String} {legacy : Bool}
    {volume : Volume} {shared : Bool} {name : Option String} {t' : Task} {s s' : Site ρ}
    {result : Except Halt Project} {planned : Except Error Plan}
    (h : ({ Task.new input root legacy volume shared with resolve } : Task).run tr name s
      = (t', s', result))
    (hplanned : input.plan resolve (tr.meanwhile s).storage = planned)
    (hreturns : result ≠ .error .stalled)
    (houtput : t'.phase ≠ .failed → ∃ p, t'.outputProject s'.storage name = .ok p)
    (hlast : s'.stopped = true → ∀ plan, planned = .ok plan →
      ∃ front m, plan.order = front ++ [m] ∧ m.isSource = true) :
    (t'.phase = .failed ↔ ∃ e, result = .error (.failed e))
      ∧ (t'.phase = .completed ↔ (∃ p, result = .ok p) ∧ t'.AllCompiled planned)
      ∧ (t'.phase = .stopped ↔
        (∃ p, result = .ok p) ∧ s'.stopped = true ∧ ¬ t'.AllCompiled planned) := by
  have hend : Ending planned name t' s' result := hplanned ▸ run_ending rfl h
  cases hend with
  | failed e hp => simp [hp]
  | stalled => exact absurd rfl hreturns
  | completed hp hc =>
    obtain ⟨p, hproject⟩ := houtput (by simp [hp])
    simp [hp, hc, hproject, Except.mapError]
  | stopped hp hs hl =>
    obtain ⟨p, hproject⟩ := houtput (by simp [hp])
    have hnot := hl.not_allCompiled (hlast hs)
    simp [hp, hs, hnot, hproject, Except.mapError]

open Rehearsal (Remote Rule)
open Transport (faultless)

/-- Has a stop asked for while a command is answered. -/
def stopAt (command : String) : List (String × List Rule) :=
  [(command, [{ send := [], raw := .empty, stop := true, close := false, usual := true }])]

def stoppedRun : Task × Site (Remote Reply) × Except Halt Project :=
  mixedTask.run rehearsed none (rehearsedSite (stopAt "Get /lib/A.vo"))

theorem run_phase_stopped :
    mixedTask.run rehearsed none (rehearsedSite (stopAt "Get /lib/A.vo")) = stoppedRun
      ∧ mixedProject.plan Plan.ofSources
          (rehearsed.meanwhile (rehearsedSite (stopAt "Get /lib/A.vo"))).storage = .ok mixedPlan
      ∧ stoppedRun.2.2 ≠ .error .stalled
      ∧ (∃ p, stoppedRun.1.outputProject stoppedRun.2.1.storage none = .ok p)
      ∧ stoppedRun.2.1.stopped = true
      ∧ (∃ front m, mixedPlan.order = front ++ [m] ∧ m.isSource = true)
      ∧ (stoppedRun.1.phase = .failed ↔ ∃ e, stoppedRun.2.2 = .error (.failed e))
      ∧ (stoppedRun.1.phase = .completed ↔
        (∃ p, stoppedRun.2.2 = .ok p) ∧ stoppedRun.1.AllCompiled (.ok mixedPlan))
      ∧ (stoppedRun.1.phase = .stopped ↔ (∃ p, stoppedRun.2.2 = .ok p)
        ∧ stoppedRun.2.1.stopped = true ∧ ¬ stoppedRun.1.AllCompiled (.ok mixedPlan))
      ∧ stoppedRun.1.phase = .stopped := by
  obtain ⟨hreturns, hok, hstopped, hphase⟩ : stoppedRun.2.2 ≠ .error .stalled
      ∧ (stoppedRun.1.outputProject stoppedRun.2.1.storage none).isOk = true
      ∧ stoppedRun.2.1.stopped = true ∧ stoppedRun.1.phase = .stopped := by decide +kernel
  have houtput := exists_of_isOk hok
  have hlast : ∃ front m, mixedPlan.order = front ++ [m] ∧ m.isSource = true :=
    ⟨mixedPlan.order.dropLast, ⟨some mixedVolume, ["B"], "/src/B.v", some "p"⟩, rfl, by decide⟩
  have hplan : mixedProject.plan Plan.ofSources
      (rehearsed.meanwhile (rehearsedSite (stopAt "Get /lib/A.vo"))).storage = .ok mixedPlan :=
    mixedProject_plan
  have hrun : ({ Task.new mixedProject "/lib" false mixedOutput false with
      resolve := Plan.ofSources } : Task).run rehearsed none
        (rehearsedSite (stopAt "Get /lib/A.vo")) = stoppedRun := rfl
  obtain ⟨hfailed, hcompleted, hstop⟩ :=
    run_phase hrun hplan hreturns (fun _ => houtput) fun _ plan hp => by
      cases hp
      exact hlast
  exact ⟨rfl, hplan, hreturns, houtput, hstopped, hlast, hfailed, hcompleted, hstop, hphase⟩

/-- A volume of the output with a file whose name has two slashes: the directory that is listed
there cannot be found. -/
def brokenSite : Site (List Reply) where
  remote := []
  storage := ⟨[.ofList [("/src/A.v", .empty)], .ofList [("/lib//x", .empty)]], [], default, 2⟩
  stopped := false

/-- The compiled `A` comes after `B` in the plan. -/
def lateSite : Site (Remote Reply) where
  remote := (rehearsedSite (stopAt "Compile /lib/B.vo")).remote
  storage := ⟨[.ofList [("/src/A.vo", .empty), ("/src/B.v", .empty)], .empty], [], default, 2⟩
  stopped := false

def brokenRun : Task × Site (List Reply) × Except Halt Project :=
  (Task.new mixedProject "/lib" false mixedOutput true).run faultless none brokenSite

def lateRun : Task × Site (Remote Reply) × Except Halt Project :=
  mixedTask.run rehearsed none lateSite

def latePlan : Plan where
  order := [⟨some mixedVolume, ["B"], "/src/B.v", some "p"⟩,
    ⟨some mixedVolume, ["A"], "/src/A.vo", some "p"⟩]
  external := .empty
  deps := .empty

/-- A run whose output cannot be put together fails and is completed all the same. A stop that is
noticed before a compiled file makes a run stopped though every source has been compiled. -/
theorem run_phase_mistaken :
    (brokenRun.1.phase = .completed ∧ brokenRun.2.2 = .error (.failed (.notFound "/lib/x")))
      ∧ lateRun.1.phase = .stopped ∧ (∃ p, lateRun.2.2 = .ok p)
        ∧ mixedProject.plan Plan.ofSources (rehearsed.meanwhile lateSite).storage = .ok latePlan
        ∧ lateRun.1.AllCompiled (.ok latePlan) := by
  have hplan : mixedProject.plan Plan.ofSources (rehearsed.meanwhile lateSite).storage =
      .ok latePlan := by decide +kernel
  obtain ⟨hphase, hok, hout⟩ : lateRun.1.phase = .stopped ∧ lateRun.2.2.isOk = true
      ∧ lateRun.1.outfiles = (latePlan.order.filter (·.isSource)).map lateRun.1.outfile := by
    decide +kernel
  exact ⟨by decide +kernel, hphase, exists_of_isOk hok, hplan, latePlan, rfl, hout⟩

end Task

end Bindery
