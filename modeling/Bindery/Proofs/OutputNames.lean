import Bindery.Proofs.OutputManifest
import Mathlib.Data.List.Sort

/-!
# The names of an output

The output of a completed run has the names of the sources that the project has at the start of the
run. These are all its names just if each of its modules has a source: `names_completed`.
-/

namespace Bindery

theorem NameSet.ofList_eq_iff {names names' : List String} :
    ofList names = ofList names' ↔ ∀ n, n ∈ names ↔ n ∈ names' := by
  constructor
  · intro h n
    rw [← mem_toList_ofList, h, mem_toList_ofList]
  · intro h
    refine NameSet.ext (List.Pairwise.eq_of_mem_iff (ofList names).increasing
      (ofList names').increasing fun n => ?_)
    rw [mem_toList_ofList, mem_toList_ofList, h]

theorem Record.names_eq_iff {records records' : List Record} :
    names records = names records' ↔
      ∀ n, (∃ m ∈ records, m.dotted = n) ↔ ∃ m ∈ records', m.dotted = n := by
  simp only [names, NameSet.ofList_eq_iff, List.mem_map]

theorem Record.names_filter_isSource {records : List Record} :
    names (records.filter (·.isSource)) = names records ↔
      ∀ m ∈ records, ∃ m' ∈ records, m'.isSource = true ∧ m'.dotted = m.dotted := by
  simp only [names_eq_iff, List.mem_filter, and_assoc]
  constructor
  · intro h m hm
    exact (h m.dotted).2 ⟨m, hm, rfl⟩
  · intro h n
    constructor
    · rintro ⟨m, hm, -, rfl⟩
      exact ⟨m, hm, rfl⟩
    · rintro ⟨m, hm, rfl⟩
      exact h m hm

namespace Task

open Transport (faultless)

variable {ρ : Type} {tr : Transport ρ} {t t' : Task} {name : Option String} {s s' : Site ρ}
  {p : Project} {plan : Plan} {as : List (Attempt ρ)}

/-- A compiled file has the name of its source, so the output has no other names than sources. -/
theorem Completes.names_eq (hc : Completes tr t t' name s s' p plan as) (st : Storage) :
    p.names st = Record.names (plan.order.filter (·.isSource)) := by
  obtain ⟨-, hlisted⟩ := outputProject_inv hc.project
  have hmodules : p.modules st =
      (t'.infiles ++ t'.outfiles).map (·.ownedBy (t'.outputName name)) := by
    rw [Project.modules, hlisted]
  rw [Project.names, hmodules, hc.infiles, hc.outfiles, ← hc.records, Record.names_eq_iff]
  intro n
  simp only [List.mem_map, List.mem_append]
  constructor
  · rintro ⟨_, ⟨m, ⟨a, ha, rfl⟩ | ⟨a, ha, rfl⟩, rfl⟩, rfl⟩
    · exact ⟨_, ⟨a, ha, rfl⟩, rfl⟩
    · exact ⟨_, ⟨a, ha, rfl⟩, rfl⟩
  · rintro ⟨_, ⟨a, ha, rfl⟩, rfl⟩
    exact ⟨_, ⟨_, .inl ⟨a, ha, rfl⟩, rfl⟩, rfl⟩

/-- A completed run keeps the names of the sources, and loses those of the modules that are there
in compiled form only. -/
theorem names_completed {input : Project} {root : String} {legacy shared : Bool} {volume : Volume}
    (h : (new input root legacy volume shared).run tr name s = (t', s', .ok p))
    (hp : t'.phase = .completed) (st : Storage) :
    p.names st = Record.names
        ((input.modules (tr.meanwhile s).storage).filter (·.isSource))
      ∧ (p.names st = input.names (tr.meanwhile s).storage ↔
        ∀ m ∈ input.modules (tr.meanwhile s).storage,
          ∃ m' ∈ input.modules (tr.meanwhile s).storage,
            m'.isSource = true ∧ m'.dotted = m.dotted) := by
  obtain ⟨plan, as, hc⟩ := run_completed rfl rfl h hp
  have hplan : Plan.ofSources (tr.meanwhile s).storage input.search
      (input.modules (tr.meanwhile s).storage) = .ok plan := hc.planned
  have hnames : p.names st = Record.names
      ((input.modules (tr.meanwhile s).storage).filter (·.isSource)) := by
    rw [hc.names_eq, Record.names_eq_iff]
    simp only [List.mem_filter, Plan.mem_order hplan, implies_true]
  exact ⟨hnames, by rw [hnames]; exact Record.names_filter_isSource⟩

theorem names_completed_mixed :
    mixedTask.run faultless none mixedSite = (mixedRun.1, mixedRun.2.1, .ok mixedResult)
      ∧ mixedRun.1.phase = .completed
      ∧ mixedResult.names mixedRun.2.1.storage = .ofList ["A", "B"] := by
  have hsources : Record.names ((mixedProject.modules mixedSite.storage).filter (·.isSource)) =
      .ofList ["A", "B"] := by decide +kernel
  obtain ⟨hnames, -⟩ := names_completed mixedRun_eq mixedRun_phase mixedRun.2.1.storage
  exact ⟨mixedRun_eq, mixedRun_phase, hnames.trans hsources⟩

/-- What is compiled already is not in the output. -/
theorem names_completed_precompiled :
    mixedTask.run faultless none mixedSite = (mixedRun.1, mixedRun.2.1, .ok mixedResult)
      ∧ mixedRun.1.phase = .completed
      ∧ mixedProject.names mixedSite.storage = .ofList ["A", "B", "C"]
      ∧ mixedResult.names mixedRun.2.1.storage ≠ mixedProject.names mixedSite.storage :=
  ⟨mixedRun_eq, mixedRun_phase, by decide +kernel, by decide +kernel⟩

end Task

end Bindery
