import Bindery.Proofs.IndexLookup

/-!
# Answers of search paths

The states of a search path are those that its operations reach, whatever the storage shows from one
to the next: `SearchPath.Reached`. In each of them a lookup in part answers with modules that start
and end as asked, and an exact lookup with at most one, of the dotted name that is asked for. It has
the logical path that is asked for, and is among the answers in part, unless an index is asked where
components have dots: `find_answers`.
-/

namespace Bindery

namespace Packages

/-- The packages that come from adding packages. -/
inductive Built : Packages → Prop where
  | empty : Built .empty
  | add {p : Packages} (package : String) (names : List String) (h : Built p) :
    Built (p.add package names)

theorem Built.read {p : Packages} (h : p.Built) :
    ∀ e ∈ p.modules.entries, ∀ name ∈ e.2, ∃ text, name = Logical.ofDotted text := by
  induction h with
  | empty => exact fun e he => absurd he List.not_mem_nil
  | @add p package names _ ih =>
    intro e he name hname
    rcases Table.mem_put_inv he with rfl | he
    · rcases List.mem_append.1 hname with hname | hname
      · rcases hf : p.modules.find? package with _ | before
        · simp [hf] at hname
        · rw [hf, Option.getD_some] at hname
          obtain ⟨e, hfound, rfl⟩ := Option.map_eq_some_iff.1 hf
          exact ih e (List.mem_of_find?_eq_some hfound) name hname
      · obtain ⟨text, -, rfl⟩ := List.mem_map.1 hname
        exact ⟨text, rfl⟩
    · exact ih e he name hname

end Packages

namespace SearchPath

/-- The search paths that operations make of a new one, each on storage that is among what is
seen. -/
inductive Reached (seen : Storage → Prop) : SearchPath → Prop where
  | new (v : Volume) : Reached seen (.new v)
  | add {s : SearchPath} (e : Entry) (h : Reached seen s) : Reached seen (s.add e)
  | addRecursive {s : SearchPath} {st : Storage} (e : Entry) (hst : seen st) (h : Reached seen s) :
    Reached seen (s.addRecursive st e).1
  | addFrom {s other : SearchPath} (h : Reached seen s) (ho : Reached seen other) :
    Reached seen (s.addFrom other)
  | createIndex {s : SearchPath} {st : Storage} (hst : seen st) (h : Reached seen s) :
    Reached seen (s.createIndex st)
  | provide {s : SearchPath} {p : Packages} (hp : p.Built) (h : Reached seen s) :
    Reached seen { s with packages := some p }

variable {seen : Storage → Prop} {st : Storage} {s : SearchPath} {front back : Logical}

/-- The modules that a lookup goes through before the external ones. -/
def known (st : Storage) (s : SearchPath) : List Record :=
  match s.index with
  | some i => i.records
  | none => s.modules st

/-- An index holds modules of directories, and names of external modules are read from texts. -/
structure Sound (s : SearchPath) : Prop where
  index : ∀ i ∈ s.index, ∀ m ∈ i.records,
    m.isExternal = false ∧ ∃ front stem, m.logical = front ++ [stem] ∧ stem ≠ ""
  provided : ∀ name, s.Provides name → ∃ text, name = Logical.ofDotted text

theorem Sound.append (h : s.Sound) (entries : List Entry) : (s.append entries).Sound where
  index := by simp [SearchPath.append]
  provided := h.provided

theorem Reached.sound (h : s.Reached seen) : s.Sound := by
  induction h with
  | new v => exact ⟨by simp [SearchPath.new], by simp [Provides, SearchPath.new]⟩
  | add e _ ih => exact ih.append _
  | @addRecursive s st e _ _ ih =>
    simp only [SearchPath.addRecursive]
    split
    · exact ih
    · exact ih.append _
  | addFrom _ _ ih _ => exact ih.append _
  | @createIndex s st _ _ ih =>
    refine ⟨?_, ih.provided⟩
    rintro i hi m hm
    obtain rfl := Option.some.inj hi
    rw [Index.records_ofRecords] at hm
    exact mem_modules_inv (firsts_subset _ hm)
  | provide hp _ ih =>
    refine ⟨ih.index, ?_⟩
    rintro name ⟨p, hmem, e, he, hname⟩
    obtain rfl := Option.some.inj hmem
    exact hp.read e he name hname

theorem Sound.known (h : s.Sound) {m : Record} (hm : m ∈ s.known st) :
    m.isExternal = false ∧ ∃ front stem, m.logical = front ++ [stem] ∧ stem ≠ "" := by
  unfold SearchPath.known at hm
  split at hm
  · rename_i i hi
    exact h.index i hi m hm
  · exact mem_modules_inv hm

theorem answers_partial {name : Logical} :
    name.answers front back false = true ↔ front <+: name ∧ back <:+ name := by
  simp [Logical.answers]

theorem answers_exact {name : Logical} :
    name.answers front back true = true ↔ name = front ++ back := by
  simp [Logical.answers]

theorem findLocal_partial :
    s.findLocal st front back false = (s.known st).filter (·.logical.answers front back false) := by
  rcases hi : s.index with _ | i
  · simp [findLocal, known, hi]
  · simp [findLocal, known, hi, Index.find]

theorem mem_findLocal_exact {m : Record} (h : m ∈ s.findLocal st front back true) :
    m ∈ s.known st ∧ m.dotted = Logical.dotted (front ++ back)
      ∧ (s.index = none → m.logical = front ++ back) := by
  rcases hi : s.index with _ | i
  · simp only [findLocal, hi, if_true, Option.mem_toList] at h
    have ha := List.find?_some h
    have hlogical : m.logical = front ++ back := answers_exact.1 ha
    have hm : m ∈ s.known st := by
      simp only [known, hi]
      exact List.mem_of_find?_eq_some h
    exact ⟨hm, congrArg Logical.dotted hlogical, fun _ => hlogical⟩
  · simp only [findLocal, hi, Index.find, if_true, Option.mem_toList, Index.get?] at h
    have hm : m ∈ s.known st := by
      simp only [known, hi]
      exact List.mem_of_find?_eq_some h
    exact ⟨hm, by simpa using List.find?_some h, by simp⟩

theorem mem_find {exact : Bool} {m : Record} (h : m ∈ s.find st front back exact) :
    m ∈ s.findLocal st front back exact ∨ m ∈ s.findExternal front back exact := by
  rw [← List.mem_append]
  unfold find at h
  simp only at h
  split at h
  · exact List.mem_of_mem_take h
  · exact h

theorem mem_find_partial {m : Record} :
    m ∈ s.find st front back false ↔
      (m ∈ s.known st ∨ ∃ name, s.Provides name ∧ m = .external name)
        ∧ front <+: m.logical ∧ back <:+ m.logical := by
  have hfind : s.find st front back false =
      s.findLocal st front back false ++ s.findExternal front back false := rfl
  rw [hfind, findLocal_partial, List.mem_append, List.mem_filter, mem_findExternal, answers_partial]
  constructor
  · rintro (⟨hm, ha⟩ | ⟨name, hname, ha, rfl⟩)
    · exact ⟨.inl hm, ha⟩
    · exact ⟨.inr ⟨name, hname, rfl⟩, answers_partial.1 ha⟩
  · rintro ⟨hm | ⟨name, hname, rfl⟩, ha⟩
    · exact .inl ⟨hm, ha⟩
    · exact .inr ⟨name, hname, answers_partial.2 ha, rfl⟩

/-- What an exact lookup finds has the dotted name that is asked for, and has its logical path if
neither the index nor what is asked for has dots in components. -/
theorem mem_find_exact (hs : s.Sound) {m : Record} (h : m ∈ s.find st front back true) :
    (m ∈ s.known st ∨ ∃ name, s.Provides name ∧ m = .external name)
      ∧ m.dotted = Logical.dotted (front ++ back)
      ∧ ((∀ i ∈ s.index, (∀ x ∈ i.records, x.logical.Dotless) ∧ Logical.Dotless (front ++ back)) →
        m.logical = front ++ back) := by
  rcases mem_find h with hlocal | hexternal
  · obtain ⟨hm, hdotted, hscan⟩ := mem_findLocal_exact hlocal
    refine ⟨.inl hm, hdotted, fun hd => ?_⟩
    rcases hi : s.index with _ | i
    · exact hscan hi
    · obtain ⟨hrecords, hquery⟩ := hd i hi
      have hmem : m ∈ i.records := by simpa only [known, hi] using hm
      obtain ⟨-, front', stem, hlogical, hstem⟩ := hs.index i hi m hmem
      exact (Logical.dotted_eq_iff (hrecords m hmem) hquery hlogical hstem).1 hdotted
  · obtain ⟨name, hname, ha, rfl⟩ := mem_findExternal.1 hexternal
    have hlogical : name = front ++ back := answers_exact.1 ha
    exact ⟨.inr ⟨name, hname, rfl⟩, congrArg Logical.dotted hlogical, fun _ => hlogical⟩

/-- Answers start and end as asked. An exact lookup has at most one, of the dotted name that is
asked for; without dots in components it has the logical path that is asked for, and a lookup in
part finds a module of that path too. External modules have the names that their texts give. -/
theorem find_answers (h : s.Reached seen) (st : Storage) (front back : Logical) :
    (s.find st front back true).length ≤ 1
      ∧ (∀ m ∈ s.find st front back true, m.dotted = Logical.dotted (front ++ back))
      ∧ ((∀ i ∈ s.index, (∀ x ∈ i.records, x.logical.Dotless) ∧ Logical.Dotless (front ++ back)) →
        ∀ m ∈ s.find st front back true, m.logical = front ++ back
          ∧ ∃ m' ∈ s.find st front back false, m'.logical = front ++ back)
      ∧ (∀ m ∈ s.find st front back false, front <+: m.logical ∧ back <:+ m.logical)
      ∧ ∀ exact, ∀ m ∈ s.find st front back exact, m.isExternal = true →
        m.logical = Logical.ofDotted m.dotted := by
  have hs := h.sound
  refine ⟨?_, fun m hm => (mem_find_exact hs hm).2.1, fun hd m hm => ?_,
    fun m hm => (mem_find_partial.1 hm).2, fun exact m hm he => ?_⟩
  · simp only [find, if_true]
    exact List.length_take_le 1 _
  · obtain ⟨hknown, -, hlogical⟩ := mem_find_exact hs hm
    have hname := hlogical hd
    refine ⟨hname, m, mem_find_partial.2 ⟨hknown, ?_⟩, hname⟩
    rw [hname]
    exact ⟨List.prefix_append _ _, List.suffix_append _ _⟩
  · have hknown : m ∈ s.known st ∨ ∃ name, s.Provides name ∧ m = .external name := by
      cases exact with
      | false => exact (mem_find_partial.1 hm).1
      | true => exact (mem_find_exact hs hm).1
    rcases hknown with hknown | ⟨name, hname, rfl⟩
    · rw [(hs.known hknown).1] at he
      cases he
    · obtain ⟨text, rfl⟩ := hs.provided name hname
      exact (Logical.ofDotted_dotted (Logical.dotless_ofDotted text)
        fun _ => Logical.ne_of_mem_ofDotted).symm

/-- A memory with one module, and a search path that has indexed it beside an external module. -/
def loneVolume : Volume := ⟨0, .memory 0⟩

def loneStorage (file : String) : Storage :=
  ⟨[.ofList [("/d/" ++ file, .empty)]], [], default, 1⟩

def lonePath (file : String) : SearchPath :=
  let s := (SearchPath.new loneVolume).add ⟨loneVolume, [], "/d", none⟩
  createIndex (loneStorage file) { s with packages := some (Packages.empty.add "e" ["E.A"]) }

theorem reached_lonePath (file : String) : (lonePath file).Reached (· = loneStorage file) :=
  .createIndex rfl (.provide (.add _ _ .empty) (.add _ (.new _)))

theorem find_answers_lone :
    (lonePath "A.v").Reached (· = loneStorage "A.v")
      ∧ (∀ i ∈ (lonePath "A.v").index,
        (∀ x ∈ i.records, x.logical.Dotless) ∧ Logical.Dotless ([] ++ ["A"]))
      ∧ ((lonePath "A.v").find (loneStorage "A.v") [] ["A"] true).length ≤ 1
      ∧ (∀ m ∈ (lonePath "A.v").find (loneStorage "A.v") [] ["A"] true,
        m.dotted = Logical.dotted ([] ++ ["A"]))
      ∧ (∀ m ∈ (lonePath "A.v").find (loneStorage "A.v") [] ["A"] true, m.logical = [] ++ ["A"]
        ∧ ∃ m' ∈ (lonePath "A.v").find (loneStorage "A.v") [] ["A"] false,
          m'.logical = [] ++ ["A"])
      ∧ (∀ m ∈ (lonePath "A.v").find (loneStorage "A.v") [] ["A"] false,
        [] <+: m.logical ∧ ["A"] <:+ m.logical)
      ∧ ∀ exact, ∀ m ∈ (lonePath "A.v").find (loneStorage "A.v") [] ["A"] exact,
        m.isExternal = true → m.logical = Logical.ofDotted m.dotted := by
  have hs := reached_lonePath "A.v"
  have hd : ∀ i ∈ (lonePath "A.v").index,
      (∀ x ∈ i.records, x.logical.Dotless) ∧ Logical.Dotless ([] ++ ["A"]) := by
    decide
  obtain ⟨hone, hdotted, hexact, hpartial, hexternal⟩ :=
    find_answers hs (loneStorage "A.v") [] ["A"]
  exact ⟨hs, hd, hone, hdotted, hexact hd, hpartial, hexternal⟩

/-- The index finds the module of the file `A.B.v`, whose logical path has one component, for a name
of two components. -/
theorem find_exact_dotted :
    (lonePath "A.B.v").Reached (· = loneStorage "A.B.v")
      ∧ (lonePath "A.B.v").find (loneStorage "A.B.v") ["A"] ["B"] true
        = [⟨some loneVolume, ["A.B"], "/d/A.B.v", none⟩]
      ∧ (lonePath "A.B.v").find (loneStorage "A.B.v") ["A"] ["B"] false = []
      ∧ (lonePath "A.B.v").unindexed.find (loneStorage "A.B.v") ["A"] ["B"] true = [] :=
  ⟨reached_lonePath "A.B.v", by decide, by decide, by decide⟩

end SearchPath

end Bindery
