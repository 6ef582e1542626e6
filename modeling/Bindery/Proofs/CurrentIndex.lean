import Bindery.Proofs.PathText
import Bindery.Search.Path

/-!
# Indexes that are up to date

An index lists modules as they are when it is made. While directories are listed as they were then,
it stays the index that would be made: each directory that is registered takes the index away, also
those before what stops a registration, `addRecursive_eq_foldl_add`. So after any run of operations
on search paths an index that is there is up to date, `run_index`.
-/

namespace Bindery

theorem Entry.normal_normal (e : Entry) : e.normal.normal = e.normal := by
  have hjoin : Path.join [Path.join [e.physical]] = Path.join [e.physical] := by
    rw [Path.join_eq_text [e.physical], List.flatMap_singleton,
      Path.join_text _ (Path.allSteps_steps _)]
  simp only [Entry.normal, hjoin]

namespace Scan

variable {st : Storage}

theorem children_normal {scan : Entry → Scan} (hscan : ∀ e, ∀ x ∈ (scan e).entries, x.normal = x)
    (e : Entry) : ∀ names : List String, ∀ x ∈ (children st scan e names).entries, x.normal = x
  | [], x, hx => by simp [children] at hx
  | c :: r, x, hx => by
    rw [children] at hx
    split at hx
    · simp at hx
    · exact children_normal hscan e r x hx
    · split at hx <;> rename_i hc
      · exact hscan _ x (by rw [hc]; exact hx)
      · rcases List.mem_append.1 hx with hx | hx
        · exact hscan _ x (by rw [hc]; exact hx)
        · exact children_normal hscan e r x hx

theorem levels_normal : ∀ (depth : Nat) (e : Entry), ∀ x ∈ (levels st depth e).entries, x.normal = x
  | 0, _, x, hx => by simp [levels] at hx
  | depth + 1, e, x, hx => by
    rw [levels] at hx
    simp only at hx
    split at hx
    · simp at hx
    · rcases List.mem_cons.1 hx with rfl | hx
      · exact e.normal_normal
      · exact children_normal (levels_normal depth) _ _ x hx

end Scan

namespace SearchPath

variable {st : Storage} {s : SearchPath}

theorem append_append (es fs : List Entry) : (s.append es).append fs = s.append (es ++ fs) := by
  simp only [append, List.append_assoc]

theorem foldl_add : ∀ {es : List Entry} {s : SearchPath}, es ≠ [] → (∀ e ∈ es, e.normal = e) →
    es.foldl add s = s.append es
  | [e], s, _, h => by rw [List.foldl_cons, List.foldl_nil, add, h e List.mem_cons_self]
  | e :: f :: r, s, _, h => by
    obtain ⟨he, hr⟩ := List.forall_mem_cons.1 h
    rw [List.foldl_cons, foldl_add (List.cons_ne_nil f r) hr, add, he, append_append,
      List.singleton_append]

/-- Registering a directory and those below it registers one after another, up to what stops it. -/
theorem addRecursive_eq_foldl_add (st : Storage) (s : SearchPath) (e : Entry) :
    (s.addRecursive st e).1 = (e.scan st).entries.foldl add s := by
  by_cases h : (e.scan st).entries = []
  · rw [h, List.foldl_nil, addRecursive]
    exact if_pos h
  · simp only [addRecursive, if_neg h]
    exact (foldl_add h (Scan.levels_normal _ e)).symm

/-- The index, if there is one, is the one that would be made now. -/
def Current (st : Storage) (s : SearchPath) : Prop :=
  ∀ i ∈ s.index, i = .ofRecords (s.modules st)

theorem modules_congr {st st' : Storage} (h : st.list = st'.list) (s : SearchPath) :
    s.modules st = s.modules st' := by
  simp only [modules, Entry.modules, h]

theorem current_append (st : Storage) (s : SearchPath) (es : List Entry) :
    (s.append es).Current st := by
  simp [Current, append]

theorem Current.foldl_add (h : s.Current st) : ∀ es : List Entry, (es.foldl add s).Current st := by
  intro es
  induction es generalizing s with
  | nil => exact h
  | cons e r ih => exact ih (current_append st s [e.normal])

theorem current_createIndex {st st' : Storage} (h : st'.list = st.list) (s : SearchPath) :
    (s.createIndex st').Current st := by
  rintro i hi
  obtain rfl := Option.some.inj hi
  exact congrArg Index.ofRecords (modules_congr h s)

theorem Current.createIndex_eq (h : s.Current st) {i : Index} (hi : s.index = some i) :
    s.createIndex st = s := by
  rw [createIndex, ← h i hi, ← hi]

/-- What is done to the search paths at hand, each told by its place among them. -/
inductive Operation where
  | new (v : Volume)
  | clone (place : Nat)
  | add (place : Nat) (e : Entry)
  | addRecursive (place : Nat) (e : Entry)
  /-- Registers a directory of the volume of the search path. -/
  | addBelow (place : Nat) (physical : String) (logical : Logical) (package : Option String)
  | addFrom (place other : Nat)
  | createIndex (place : Nat)
  | provide (place : Nat) (packages : Packages)

/-- The search paths after an operation; one that names none that is there changes nothing. -/
def Operation.act (st : Storage) (paths : List SearchPath) : Operation → List SearchPath
  | .new v => paths ++ [.new v]
  | .clone i => paths ++ paths[i]?.toList
  | .add i e => paths.modify i (·.add e)
  | .addRecursive i e => paths.modify i fun s => (s.addRecursive st e).1
  | .addBelow i physical logical package =>
    paths.modify i fun s => (s.addRecursive st ⟨s.volume, logical, physical, package⟩).1
  | .addFrom i j =>
    match paths[j]? with
    | some other => paths.modify i (·.addFrom other)
    | none => paths
  | .createIndex i => paths.modify i (·.createIndex st)
  | .provide i p => paths.modify i fun s => { s with packages := some p }

/-- The search paths after some operations, each with the storage on which it takes place. -/
def run (paths : List SearchPath) (ops : List (Storage × Operation)) : List SearchPath :=
  ops.foldl (fun paths op => op.2.act op.1 paths) paths

theorem forall_mem_modify {p : SearchPath → Prop} {f : SearchPath → SearchPath}
    (hf : ∀ s, p s → p (f s)) : ∀ {paths : List SearchPath} (i : Nat), (∀ s ∈ paths, p s) →
      ∀ s ∈ paths.modify i f, p s
  | [], i, _ => by simp
  | a :: r, 0, h => by
    rw [List.modify_zero_cons]
    obtain ⟨ha, hr⟩ := List.forall_mem_cons.1 h
    exact List.forall_mem_cons.2 ⟨hf a ha, hr⟩
  | a :: r, i + 1, h => by
    rw [List.modify_succ_cons]
    obtain ⟨ha, hr⟩ := List.forall_mem_cons.1 h
    exact List.forall_mem_cons.2 ⟨ha, forall_mem_modify hf i hr⟩

/-- An operation on storage that lists directories alike keeps indexes up to date. -/
theorem current_act {st st' : Storage} (hst : st'.list = st.list) {paths : List SearchPath}
    (h : ∀ s ∈ paths, s.Current st) (op : Operation) : ∀ s ∈ op.act st' paths, s.Current st := by
  cases op with
  | new v =>
    refine List.forall_mem_append.2 ⟨h, ?_⟩
    simp [Current, SearchPath.new]
  | clone i =>
    refine List.forall_mem_append.2 ⟨h, fun s hs => ?_⟩
    exact h s (List.mem_of_getElem? (Option.mem_toList.1 hs))
  | add i e => exact forall_mem_modify (fun s _ => current_append st s _) i h
  | addRecursive i e =>
    refine forall_mem_modify (fun s hs => ?_) i h
    rw [addRecursive_eq_foldl_add]
    exact hs.foldl_add _
  | addBelow i physical logical package =>
    refine forall_mem_modify (fun s hs => ?_) i h
    rw [addRecursive_eq_foldl_add]
    exact hs.foldl_add _
  | addFrom i j =>
    simp only [Operation.act]
    split
    · exact forall_mem_modify (fun s _ => current_append st s _) i h
    · exact h
  | createIndex i => exact forall_mem_modify (fun s _ => current_createIndex hst s) i h
  | provide i p =>
    refine forall_mem_modify (fun s hs => ?_) i h
    exact hs

theorem current_run {st : Storage} : ∀ {ops : List (Storage × Operation)} {paths : List SearchPath},
    (∀ op ∈ ops, op.1.list = st.list) → (∀ s ∈ paths, s.Current st) →
    ∀ s ∈ run paths ops, s.Current st
  | [], _, _, h => h
  | op :: r, _, hops, h => by
    obtain ⟨hop, hr⟩ := List.forall_mem_cons.1 hops
    have hrest := current_run hr (current_act hop h op.2)
    exact hrest

/-- After any operations, on storage that lists directories as it does now, an index is the one that
would be made now, and lookups find what they would find through that one. -/
theorem run_index {st : Storage} {ops : List (Storage × Operation)}
    (hops : ∀ op ∈ ops, op.1.list = st.list) {s : SearchPath} (hs : s ∈ run [] ops) {i : Index}
    (hi : s.index = some i) :
    i = .ofRecords (s.modules st)
      ∧ ∀ front back exact,
        s.find st front back exact = (s.createIndex st).find st front back exact := by
  have hcurrent := current_run hops (by simp) s hs
  refine ⟨hcurrent i hi, fun front back exact => ?_⟩
  rw [hcurrent.createIndex_eq hi]

/-- A memory of which one file changes, with a name that is listed in `/d` and is not there. -/
def astrayVolume : Volume := ⟨0, .memory 0⟩

def astrayFiles (content : String) : Files where
  entries := [("/d//x", .empty), ("/d/A.v", content.toUTF8), ("/e/B.v", .empty)]
  increasing := by
    show ["/d//x", "/d/A.v", "/e/B.v"].Pairwise (· < ·)
    decide

def astrayStorage (content : String) : Storage := ⟨[astrayFiles content], [], default, 1⟩

/-- A search path is indexed; its copy goes on with a directory at whose child it stops. -/
def astrayRun : List (Storage × Operation) :=
  [(astrayStorage "", .new astrayVolume),
    (astrayStorage "", .add 0 ⟨astrayVolume, [], "/e", none⟩),
    (astrayStorage "", .createIndex 0),
    (astrayStorage "", .clone 0),
    (astrayStorage "Check 1.", .addRecursive 1 ⟨astrayVolume, [], "/d/", none⟩),
    (astrayStorage "Check 1.", .createIndex 1)]

def astrayIndex : Index :=
  ⟨[⟨some astrayVolume, ["B"], "/e/B.v", none⟩, ⟨some astrayVolume, ["A"], "/d/A.v", none⟩]⟩

def astrayPath : SearchPath where
  volume := astrayVolume
  entries := [⟨astrayVolume, [], "/e", none⟩, ⟨astrayVolume, [], "/d", none⟩]
  index := some astrayIndex
  packages := none

theorem list_astrayStorage (content content' : String) :
    (astrayStorage content).list = (astrayStorage content').list := by
  funext v path
  rcases v with ⟨id, (_ | slot) | slot | _⟩ <;> rfl

theorem run_index_astray :
    (∀ op ∈ astrayRun, op.1.list = (astrayStorage "Check 1.").list)
      ∧ ((SearchPath.new astrayVolume).addRecursive (astrayStorage "Check 1.")
        ⟨astrayVolume, [], "/d/", none⟩).2 = some (.notFound "/d/x")
      ∧ astrayPath ∈ run [] astrayRun
      ∧ astrayPath.index = some astrayIndex
      ∧ astrayIndex = .ofRecords (astrayPath.modules (astrayStorage "Check 1."))
      ∧ ∀ front back exact, astrayPath.find (astrayStorage "Check 1.") front back exact
        = (astrayPath.createIndex (astrayStorage "Check 1.")).find (astrayStorage "Check 1.")
          front back exact := by
  have hops : ∀ op ∈ astrayRun, op.1.list = (astrayStorage "Check 1.").list := by
    simp [astrayRun, list_astrayStorage _ "Check 1."]
  have hmem : astrayPath ∈ run [] astrayRun := by decide
  exact ⟨hops, by decide, hmem, rfl, run_index hops hmem rfl⟩

end SearchPath

end Bindery
