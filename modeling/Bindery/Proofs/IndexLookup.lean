import Bindery.Plan.Basic
import Bindery.Proofs.DottedName
import Bindery.Proofs.ModuleFile
import Mathlib.Data.List.Find

/-!
# Lookups in an index

An index holds the first module of each dotted name, `records_ofRecords`. Where components have no
dots these are the first modules of the logical paths, and a lookup through the index finds what a
scan finds, without the later modules of a logical path: `find_createIndex`. A plan is the same
with an index and without one if no package owns only later modules of a logical path:
`ofSources_createIndex`.
-/

namespace Bindery

section Firsts

variable {α β γ : Type} [DecidableEq β] [DecidableEq γ]

/-- The elements of a list without those that have the key of one before them. -/
def firsts (key : α → β) : List α → List α
  | [] => []
  | a :: r => a :: (firsts key r).filter (key · ≠ key a)

variable {key : α → β} {p : α → Bool}

theorem firsts_subset : ∀ l : List α, firsts key l ⊆ l
  | [] => fun _ h => h
  | a :: r => by
    intro x hx
    rcases List.mem_cons.1 hx with rfl | hx
    · exact List.mem_cons_self
    · exact List.mem_cons_of_mem _ (firsts_subset r (List.mem_filter.1 hx).1)

/-- A test of the key can be made before or after. -/
theorem firsts_filter (hp : ∀ a b, key a = key b → p a = p b) (l : List α) :
    firsts key (l.filter p) = (firsts key l).filter p := by
  induction l with
  | nil => rfl
  | cons a r ih =>
    by_cases ha : p a = true
    · rw [List.filter_cons_of_pos ha, firsts, firsts, List.filter_cons_of_pos ha, ih,
        List.filter_filter, List.filter_filter]
      simp only [Bool.and_comm]
    · have hdrop : ∀ x ∈ firsts key r, (decide (key x ≠ key a) && p x) = p x := by
        intro x _
        by_cases hx : key x = key a
        · simp [hp x a hx, ha]
        · simp [hx]
      rw [List.filter_cons_of_neg ha, firsts, List.filter_cons_of_neg ha, ih, List.filter_filter]
      exact List.filter_congr fun x hx => by rw [Bool.and_comm, hdrop x hx]

theorem firsts_congr {key' : α → γ} {l : List α}
    (h : ∀ a ∈ l, ∀ b ∈ l, key a = key b ↔ key' a = key' b) : firsts key l = firsts key' l := by
  induction l with
  | nil => rfl
  | cons a r ih =>
    have hr := ih fun x hx y hy => h x (List.mem_cons_of_mem _ hx) y (List.mem_cons_of_mem _ hy)
    rw [firsts, firsts, hr]
    refine congrArg _ (List.filter_congr fun x hx => ?_)
    have hkey := h x (List.mem_cons_of_mem _ (firsts_subset r hx)) a List.mem_cons_self
    simp [hkey]

/-- A search finds the same among the first elements, if the first element of a key passes the test
when another does. -/
theorem find?_firsts {l : List α}
    (h : ∀ x ∈ l, p x = true → ∀ y, l.find? (key · = key x) = some y → p y = true) :
    (firsts key l).find? p = l.find? p := by
  induction l with
  | nil => rfl
  | cons a r ih =>
    by_cases ha : p a = true
    · rw [firsts, List.find?_cons_of_pos ha, List.find?_cons_of_pos ha]
    · -- What passes the test has another key than `a`, and stays when the key of `a` is dropped.
      have hne : ∀ x ∈ r, p x = true → key x ≠ key a := by
        intro x hx hpx he
        exact ha (h x (List.mem_cons_of_mem _ hx) hpx a (by simp [he]))
      have hr : (firsts key r).find? p = r.find? p := by
        refine ih fun x hx hpx y hy => h x (List.mem_cons_of_mem _ hx) hpx y ?_
        rw [List.find?_cons_of_neg (by simpa using Ne.symm (hne x hx hpx))]
        exact hy
      rw [firsts, List.find?_cons_of_neg ha, List.find?_cons_of_neg ha, ← hr, List.find?_filter]
      refine List.find?_congr fun x hx => ?_
      by_cases hpx : p x = true
      · simp [hpx, hne x (firsts_subset r hx) hpx]
      · simp [hpx]

/-- The first elements of the keys are found among them. -/
theorem find?_key_firsts (k : β) (l : List α) :
    (firsts key l).find? (key · = k) = l.find? (key · = k) := by
  refine find?_firsts fun x _ hx y hy => ?_
  have hkey := List.find?_some hy
  rw [decide_eq_true_eq] at hx hkey ⊢
  rw [hkey, hx]

theorem mem_map_firsts (k : β) (l : List α) : k ∈ (firsts key l).map key ↔ k ∈ l.map key := by
  have hfind : ∀ l : List α, k ∈ l.map key ↔ (l.find? (key · = k)).isSome = true := by
    intro l
    simp [List.find?_isSome]
  rw [hfind, hfind, find?_key_firsts]

end Firsts

namespace Index

theorem records_foldl_add (records : List Record) (i : Index) :
    (records.foldl add i).records =
      i.records ++ (firsts (·.dotted) records).filter fun m => (i.get? m.dotted).isNone := by
  induction records generalizing i with
  | nil => simp [firsts]
  | cons m r ih =>
    rw [List.foldl_cons, ih, firsts, add]
    by_cases hm : (i.get? m.dotted).isSome = true
    · rw [if_pos hm, List.filter_cons_of_neg (by simpa using Option.ne_none_iff_isSome.2 hm),
        List.filter_filter]
      refine congrArg _ (List.filter_congr fun x _ => ?_)
      by_cases hx : x.dotted = m.dotted
      · simp [hx, Option.isNone_eq_false_iff.2 hm]
      · simp [hx]
    · have hnone : i.get? m.dotted = none := by simpa using hm
      rw [if_neg hm, List.filter_cons_of_pos (by simp [hnone]), List.filter_filter]
      simp only [List.append_assoc, List.singleton_append]
      refine congrArg _ (congrArg _ (List.filter_congr fun x _ => ?_))
      by_cases hx : x.dotted = m.dotted
      · simp [get?, hx]
      · have hx' : m.dotted ≠ x.dotted := Ne.symm hx
        simp [get?, hx, hx']

/-- An index of modules holds the first one of each dotted name. -/
theorem records_ofRecords (records : List Record) :
    (ofRecords records).records = firsts (·.dotted) records := by
  rw [ofRecords, records_foldl_add]
  simp [get?]

theorem get?_ofRecords (records : List Record) (name : String) :
    (ofRecords records).get? name = records.find? (·.dotted = name) := by
  rw [get?, records_ofRecords]
  exact find?_key_firsts name records

end Index

theorem Packages.mem_answering {p : Packages} {front back : Logical} {exact : Bool}
    {a : String × Logical} : a ∈ p.answering front back exact ↔
      (∃ e ∈ p.modules.entries, e.1 = a.1 ∧ a.2 ∈ e.2) ∧ a.2.answers front back exact = true := by
  simp only [answering, List.mem_flatMap, List.mem_map, List.mem_filter]
  constructor
  · rintro ⟨e, he, name, ⟨hname, ha⟩, rfl⟩
    exact ⟨⟨e, he, rfl, hname⟩, ha⟩
  · rintro ⟨⟨e, he, hpackage, hname⟩, ha⟩
    exact ⟨e, he, a.2, ⟨hname, ha⟩, Prod.ext hpackage rfl⟩

namespace SearchPath

variable {st : Storage} {s : SearchPath} {front back : Logical}

/-- The search path without its index, whose lookups scan the directories. -/
def unindexed (s : SearchPath) : SearchPath := { s with index := none }

theorem mem_modules_inv {m : Record} (h : m ∈ s.modules st) :
    m.isExternal = false ∧ ∃ front stem, m.logical = front ++ [stem] ∧ stem ≠ "" := by
  obtain ⟨e, -, h⟩ := List.mem_flatMap.1 h
  unfold Entry.modules at h
  split at h
  · obtain ⟨file, -, h⟩ := List.mem_filterMap.1 h
    obtain ⟨stem, hstem, rfl⟩ := Option.map_eq_some_iff.1 h
    exact ⟨by simp [Record.isExternal], e.logical, stem, rfl, (moduleStem?_eq_some.1 hstem).1⟩
  · simp at h

theorem dotted_eq_iff (hs : ∀ m ∈ s.modules st, m.logical.Dotless) {m : Record}
    (hm : m ∈ s.modules st) {name : Logical} (hn : name.Dotless) :
    m.dotted = name.dotted ↔ m.logical = name := by
  obtain ⟨-, front, stem, hlogical, hstem⟩ := mem_modules_inv hm
  exact Logical.dotted_eq_iff (hs m hm) hn hlogical hstem

theorem findLocal_createIndex_exact (hs : ∀ m ∈ s.modules st, m.logical.Dotless)
    (hq : Logical.Dotless (front ++ back)) :
    (s.createIndex st).findLocal st front back true
      = s.unindexed.findLocal st front back true := by
  have hfind : (s.modules st).find? (·.dotted = Logical.dotted (front ++ back)) =
      (s.modules st).find? (·.logical.answers front back true) :=
    List.find?_congr fun m hm => by simp [Logical.answers, dotted_eq_iff hs hm hq]
  simp only [findLocal, createIndex, unindexed, Index.find, if_true, Index.get?_ofRecords, hfind]
  rfl

theorem findLocal_createIndex_partial (hs : ∀ m ∈ s.modules st, m.logical.Dotless) :
    (s.createIndex st).findLocal st front back false
      = firsts (·.logical) (s.unindexed.findLocal st front back false) := by
  have hkeys : firsts (·.dotted) (s.modules st) = firsts (·.logical) (s.modules st) :=
    firsts_congr fun x hx y hy => dotted_eq_iff hs hx (hs y hy)
  have hanswers : ∀ a b : Record, a.logical = b.logical →
      a.logical.answers front back false = b.logical.answers front back false :=
    fun a b h => by rw [h]
  simp only [findLocal, createIndex, unindexed, Index.find, Bool.false_eq_true, if_false,
    Index.records_ofRecords, hkeys]
  exact (firsts_filter hanswers (s.modules st)).symm

theorem isExternal_of_mem_findLocal {exact : Bool} {m : Record}
    (h : m ∈ s.unindexed.findLocal st front back exact) : m.isExternal = false := by
  have hm : m ∈ s.modules st := by
    cases exact with
    | false => exact (List.mem_filter.1 h).1
    | true =>
      simp only [findLocal, unindexed, if_true, Option.mem_toList] at h
      exact List.mem_of_find?_eq_some h
  exact (mem_modules_inv hm).1

/-- The external packages provide a module. -/
def Provides (s : SearchPath) (name : Logical) : Prop :=
  ∃ p ∈ s.packages, ∃ e ∈ p.modules.entries, name ∈ e.2

theorem mem_findExternal {exact : Bool} {m : Record} :
    m ∈ s.findExternal front back exact ↔
      ∃ name, s.Provides name ∧ name.answers front back exact = true ∧ m = .external name := by
  unfold findExternal Provides
  rcases s.packages with _ | p
  · simp
  · simp only [List.mem_map, Packages.mem_answering, Option.mem_some_iff, exists_eq_left']
    constructor
    · rintro ⟨a, ⟨⟨e, he, -, hname⟩, ha⟩, rfl⟩
      exact ⟨a.2, ⟨e, he, hname⟩, ha, rfl⟩
    · rintro ⟨name, ⟨e, he, hname⟩, ha, rfl⟩
      exact ⟨(e.1, name), ⟨⟨e, he, rfl, hname⟩, ha⟩, rfl⟩

theorem isExternal_of_mem_findExternal {exact : Bool} {m : Record}
    (h : m ∈ s.findExternal front back exact) : m.isExternal = true := by
  obtain ⟨name, -, -, rfl⟩ := mem_findExternal.1 h
  rfl

theorem find_createIndex_exact (hs : ∀ m ∈ s.modules st, m.logical.Dotless)
    (hq : Logical.Dotless (front ++ back)) :
    (s.createIndex st).find st front back true = s.unindexed.find st front back true := by
  simp only [find, if_true, findLocal_createIndex_exact hs hq]
  rfl

theorem find_createIndex_partial (hs : ∀ m ∈ s.modules st, m.logical.Dotless) :
    (s.createIndex st).find st front back false
      = firsts (·.logical) (s.unindexed.findLocal st front back false)
        ++ s.findExternal front back false := by
  rw [← findLocal_createIndex_partial hs]
  rfl

/-- An index finds what a scan finds, of the modules in the directories only the first one of each
logical path. -/
theorem find_createIndex (hs : ∀ m ∈ s.modules st, m.logical.Dotless)
    (hq : Logical.Dotless (front ++ back)) :
    (s.createIndex st).find st front back true = s.unindexed.find st front back true
      ∧ ∃ locals externals : List Record,
        s.unindexed.find st front back false = locals ++ externals
          ∧ (∀ m ∈ locals, m.isExternal = false) ∧ (∀ m ∈ externals, m.isExternal = true)
          ∧ (s.createIndex st).find st front back false
            = firsts (·.logical) locals ++ externals := by
  refine ⟨find_createIndex_exact hs hq, s.unindexed.findLocal st front back false,
    s.findExternal front back false, rfl, fun _ => isExternal_of_mem_findLocal,
    fun _ => isExternal_of_mem_findExternal, find_createIndex_partial hs⟩

/-- A volume where two directories have a source of one name, which a source in a third one
requires. -/
def crossedVolume : Volume := ⟨0, .memory 0⟩

def crossedStorage : Storage :=
  ⟨[.ofList [("/y/A.v", .empty), ("/x/A.v", .empty), ("/m/B.v", "Require A.".toUTF8)]], [],
    default, 1⟩

/-- A search path where the directory `/x` is registered for two packages. -/
def crossedPath (first second : String) (packages : Option Packages) : SearchPath :=
  ⟨crossedVolume, [⟨crossedVolume, ["Y"], "/y", some "p"⟩,
    ⟨crossedVolume, ["X"], "/x", some first⟩, ⟨crossedVolume, ["X"], "/x", some second⟩,
    ⟨crossedVolume, ["M"], "/m", some "q"⟩], none, packages⟩

/-- The crossed search path with an external package that has a module `E.A`. -/
def crossedExternal : SearchPath := crossedPath "p" "q" (some (Packages.empty.add "e" ["E.A"]))

theorem find_createIndex_crossed :
    (∀ m ∈ crossedExternal.modules crossedStorage, m.logical.Dotless)
      ∧ Logical.Dotless ([] ++ ["A"])
      ∧ (crossedExternal.createIndex crossedStorage).find crossedStorage [] ["A"] true
        = crossedExternal.unindexed.find crossedStorage [] ["A"] true
      ∧ ∃ locals externals : List Record,
        crossedExternal.unindexed.find crossedStorage [] ["A"] false = locals ++ externals
          ∧ (∀ m ∈ locals, m.isExternal = false) ∧ (∀ m ∈ externals, m.isExternal = true)
          ∧ (crossedExternal.createIndex crossedStorage).find crossedStorage [] ["A"] false
            = firsts (·.logical) locals ++ externals := by
  have hs : ∀ m ∈ crossedExternal.modules crossedStorage, m.logical.Dotless := by decide
  have hq : Logical.Dotless ([] ++ ["A"]) := by decide
  exact ⟨hs, hq, find_createIndex hs hq⟩

end SearchPath

namespace Plan

variable {st : Storage} {s : SearchPath} {m : Record}

/-- A package owns the first of some modules of a logical path, if it owns one of them. -/
def OwnsFirst (package : Option String) (modules : List Record) : Prop :=
  ∀ x ∈ modules, x.package = package →
    ∀ y ∈ modules.find? (·.logical = x.logical), y.package = package

instance (package : Option String) (modules : List Record) :
    Decidable (OwnsFirst package modules) :=
  inferInstanceAs (Decidable (∀ x ∈ modules, x.package = package →
    ∀ y ∈ modules.find? (·.logical = x.logical), y.package = package))

theorem nearest?_eq_none {l : List Record} : nearest? m l = none ↔ l = [] := by
  cases l with
  | nil => simp [nearest?]
  | cons a r =>
    rw [nearest?]
    split
    · split <;> simp
    · simp

/-- The nearest answer is the first from which no other is less far. -/
theorem nearest?_eq_find? : ∀ l : List Record,
    nearest? m l = l.find? fun x => ∀ y ∈ l, distance m x ≤ distance m y
  | [] => rfl
  | a :: r => by
    have ih := nearest?_eq_find? r
    by_cases ha : ∀ y ∈ r, distance m a ≤ distance m y
    · rw [List.find?_cons_of_pos (by simpa using ha), nearest?]
      split
      · rename_i b hb
        have hmem : b ∈ r := List.mem_of_find?_eq_some (ih ▸ hb)
        rw [if_neg (Nat.not_lt.2 (ha b hmem))]
      · rfl
    · rw [List.find?_cons_of_neg (by simpa using ha)]
      obtain ⟨y, hy, hlt⟩ : ∃ y ∈ r, distance m y < distance m a := by simpa using ha
      have hrest : (r.find? fun x => ∀ y ∈ a :: r, distance m x ≤ distance m y) = nearest? m r := by
        rw [ih]
        refine List.find?_congr fun x _ => ?_
        simp only [List.mem_cons, forall_eq_or_imp, decide_eq_decide, and_iff_right_iff_imp]
        exact fun hx => Nat.le_of_lt (Nat.lt_of_le_of_lt (hx y hy) hlt)
      rw [hrest, nearest?]
      split
      · rename_i b hb
        have hleast := List.find?_some (ih ▸ hb)
        rw [decide_eq_true_eq] at hleast
        rw [hb, if_pos (Nat.lt_of_le_of_lt (hleast y hy) hlt)]
      · rename_i hnone
        rw [nearest?_eq_none.1 hnone] at hy
        cases hy

/-- The answer is the same without the later modules of a logical path, if these are not nearer
than the first one. -/
theorem nearest?_firsts {l more : List Record}
    (h : ∀ x ∈ l, ∀ y, l.find? (·.logical = x.logical) = some y → distance m y ≤ distance m x) :
    nearest? m (firsts (·.logical) l ++ more) = nearest? m (l ++ more) := by
  have hleast : ∀ x, (∀ y ∈ firsts (·.logical) l ++ more, distance m x ≤ distance m y) ↔
      ∀ y ∈ l ++ more, distance m x ≤ distance m y := by
    intro x
    simp only [List.forall_mem_append]
    refine and_congr_left fun _ => ⟨fun hx y hy => ?_, fun hx y hy => hx y (firsts_subset l hy)⟩
    obtain ⟨z, hz⟩ : ∃ z, l.find? (·.logical = y.logical) = some z :=
      Option.isSome_iff_exists.1 (List.find?_isSome.2 ⟨y, hy, by simp⟩)
    have hmem : z ∈ firsts (·.logical) l :=
      List.mem_of_find?_eq_some ((find?_key_firsts y.logical l).trans hz)
    exact (hx z hmem).trans (h y hy z hz)
  simp only [nearest?_eq_find?, hleast, List.find?_append]
  rw [find?_firsts]
  intro x hx hp y hy
  rw [decide_eq_true_eq] at hp ⊢
  exact fun z hz => (h x hx y hy).trans (hp z hz)

/-- A package that owns a module of a logical path owns the first one, so none is nearer. -/
theorem distance_first_le {modules : List Record} (hm : OwnsFirst m.package modules)
    (hl : ∀ x ∈ modules, x.isExternal = false) {p : Record → Bool}
    (hp : ∀ x y : Record, x.logical = y.logical → p x = p y) {x y : Record}
    (hx : x ∈ modules.filter p)
    (hy : (modules.filter p).find? (·.logical = x.logical) = some y) :
    distance m y ≤ distance m x := by
  obtain ⟨hx, hpx⟩ := List.mem_filter.1 hx
  have hfirst : modules.find? (·.logical = x.logical) = some y := by
    rw [← hy, List.find?_filter]
    refine List.find?_congr fun z _ => ?_
    by_cases hz : z.logical = x.logical
    · simp [hz, hp z x hz, hpx]
    · simp [hz]
  have hlocal := hl y (List.mem_of_find?_eq_some hfirst)
  by_cases hown : x.package = m.package
  · simp [distance, hlocal, hm x hx hown y hfirst]
  · simp only [distance, hlocal, hl x hx, hown, Bool.false_eq_true, if_false]
    split <;> omega

section Indexed

variable (hs : ∀ m ∈ s.modules st, m.logical.Dotless)
include hs

/-- The answers through an index are those of a scan or, to a name that is not given in full, those
without the later modules of a logical path. -/
theorem answers_createIndex {r : Requirement} (hr : r.IsNamed) :
    answers st (s.createIndex st) r = answers st s.unindexed r
      ∨ answers st (s.createIndex st) r = (firsts (·.logical)
          (s.unindexed.findLocal st r.origin r.name false)
          ++ s.findExternal r.origin r.name false, false)
        ∧ answers st s.unindexed r = (s.unindexed.findLocal st r.origin r.name false
          ++ s.findExternal r.origin r.name false, false) := by
  have hexact := SearchPath.find_createIndex_exact hs (hr.origin.append hr.name)
  by_cases h : (if r.origin = [] then [] else s.unindexed.find st r.origin r.name true) = []
  · right
    simp only [answers, hexact, if_pos h, SearchPath.find_createIndex_partial hs]
    exact ⟨trivial, rfl⟩
  · left
    simp only [answers, hexact, if_neg h]

theorem target?_createIndex (hm : OwnsFirst m.package (s.modules st)) {r : Requirement}
    (hr : r.IsNamed) : target? st (s.createIndex st) m r = target? st s.unindexed m r := by
  rcases answers_createIndex hs hr with h | ⟨hi, hu⟩
  · simp only [target?, h]
    rfl
  have hp : ∀ x y : Record, x.logical = y.logical →
      decide (x.logical ≠ m.logical) = decide (y.logical ≠ m.logical) :=
    fun x y h => by rw [h]
  have hnear : nearest? m ((answers st (s.createIndex st) r).1.filter (·.logical ≠ m.logical)) =
      nearest? m ((answers st s.unindexed r).1.filter (·.logical ≠ m.logical)) := by
    rw [hi, hu, List.filter_append, List.filter_append, ← firsts_filter hp]
    refine nearest?_firsts fun x hx y hy => ?_
    have hl : ∀ x ∈ s.modules st, x.isExternal = false :=
      fun x hx => (SearchPath.mem_modules_inv hx).1
    simp only [SearchPath.findLocal, SearchPath.unindexed, List.filter_filter, Bool.false_eq_true,
      if_false] at hx hy
    exact distance_first_le hm hl (fun a b h => by simp [h]) hx hy
  have hfull : (answers st (s.createIndex st) r).2 = (answers st s.unindexed r).2 := by rw [hi, hu]
  simp only [target?, hnear, hfull]
  rfl

end Indexed

theorem requirements_congr {s' : SearchPath} : ∀ {modules : List Record},
    (∀ m ∈ modules, m.isSource = true → ∀ source, targets st s m source = targets st s' m source) →
    requirements st s modules = requirements st s' modules
  | [], _ => rfl
  | m :: r, h => by
    have hr := requirements_congr fun x hx => h x (List.mem_cons_of_mem _ hx)
    by_cases hm : m.isSource = true
    · simp only [requirements, hr, h m List.mem_cons_self hm]
    · simp only [requirements, hr, hm, Bool.false_eq_true, if_false]

/-- A plan does not hang on an index if each package of a listed source owns the first modules of
the logical paths of which it owns any. -/
theorem ofSources_createIndex {modules : List Record}
    (hs : ∀ m ∈ s.modules st, m.logical.Dotless)
    (hown : ∀ m ∈ modules, m.isSource = true → OwnsFirst m.package (s.modules st)) :
    ofSources st (s.createIndex st) modules = ofSources st s.unindexed modules := by
  have hrequired : requirements st (s.createIndex st) modules =
      requirements st s.unindexed modules := by
    refine requirements_congr fun m hm hsource source => ?_
    rw [targets, targets]
    exact List.filterMap_congr fun r hr =>
      target?_createIndex hs (hown m hm hsource) (Requirement.isNamed_of_mem_parse hr)
  simp only [ofSources, hrequired]

open SearchPath (crossedVolume crossedStorage crossedPath)

theorem ofSources_createIndex_owned :
    (∀ m ∈ (crossedPath "q" "p" none).modules crossedStorage, m.logical.Dotless)
      ∧ (∀ m ∈ (crossedPath "q" "p" none).modulesOf crossedStorage (some "q"), m.isSource = true →
        OwnsFirst m.package ((crossedPath "q" "p" none).modules crossedStorage))
      ∧ ofSources crossedStorage ((crossedPath "q" "p" none).createIndex crossedStorage)
          ((crossedPath "q" "p" none).modulesOf crossedStorage (some "q"))
        = ofSources crossedStorage (crossedPath "q" "p" none).unindexed
          ((crossedPath "q" "p" none).modulesOf crossedStorage (some "q")) := by
  have hs : ∀ m ∈ (crossedPath "q" "p" none).modules crossedStorage, m.logical.Dotless := by decide
  have hown : ∀ m ∈ (crossedPath "q" "p" none).modulesOf crossedStorage (some "q"),
      m.isSource = true →
        OwnsFirst m.package ((crossedPath "q" "p" none).modules crossedStorage) := by
    decide
  exact ⟨hs, hown, ofSources_createIndex hs hown⟩

/-- A plan changes with an index if a package owns a module only where another package owns the
first one of the logical path: the module in the index is no nearer than those before it. -/
theorem ofSources_createIndex_crossed :
    ofSources crossedStorage (crossedPath "p" "q" none)
        ((crossedPath "p" "q" none).modulesOf crossedStorage (some "q"))
      = .ok ⟨[⟨some crossedVolume, ["X", "A"], "/x/A.v", some "q"⟩,
        ⟨some crossedVolume, ["M", "B"], "/m/B.v", some "q"⟩], .empty,
        .ofList [("M.B", ["X.A"])]⟩
      ∧ ofSources crossedStorage ((crossedPath "p" "q" none).createIndex crossedStorage)
        ((crossedPath "p" "q" none).modulesOf crossedStorage (some "q"))
      = .ok ⟨[⟨some crossedVolume, ["M", "B"], "/m/B.v", some "q"⟩,
        ⟨some crossedVolume, ["X", "A"], "/x/A.v", some "q"⟩], .empty,
        .ofList [("M.B", ["Y.A"])]⟩ :=
  ⟨rfl, rfl⟩

end Plan

end Bindery
