import Bindery.Proofs.ScanTree

/-!
# The trees of volumes

Files in memory that are named from the root show a tree below each directory: `shows_memory` for
directories from the root, `shows_relative` for others, where there is nothing. They show a tree if
they are its files: `shows_of_keys`. An archive whose members are named by paths that are not from
the root shows the tree of its members: `shows_archive`.
-/

namespace Bindery.Storage

open Bindery.Path (IsStep AllSteps)
open Listing (Normal)

variable {st : Storage} {v : Volume} {base : List String}

/-- What a path is that is looked up among names. -/
def kindAmong (names : List String) (path : String) : Option FileKind :=
  if path ∈ names then some .file
  else if Listing.isDirectory names path then some .directory
  else none

/-- A volume that lists directories and tells them from files by names shows the names below a
directory. -/
theorem shows_names {root : Bool} {names : List String} (hn : Normal root names)
    (hb : AllSteps base)
    (hl : ∀ cs, AllSteps cs →
      st.list v (Path.text root cs) = .ok (Listing.children names (Path.text root cs)))
    (hk : ∀ cs, AllSteps cs →
      st.stat v (Path.text root cs) =
        found (Path.text root cs) (kindAmong names (Path.text root cs))) :
    st.Shows v root base fun f => AllSteps f ∧ Path.text root (base ++ f) ∈ names where
  base_steps := hb
  file_steps := fun _ hf => hf.1
  list := by
    intro dir hd
    refine ⟨_, hl _ (hb.append hd), fun c => ?_⟩
    rw [Listing.mem_children_text hn (hb.append hd)]
    refine exists_congr fun r => ?_
    rw [List.append_assoc]
    exact ⟨fun h => ⟨h.1.right, h.2⟩, fun h => ⟨hb.append h.1, h.2⟩⟩
  isDirectory := by
    rintro dir c r ⟨hr, hmem⟩
    have hsteps : AllSteps (dir ++ [c]) := by
      have h := hr
      rw [List.append_cons] at h
      exact h.left
    have hdir := Listing.isDirectory_text hn (hb.append hsteps)
    rw [Storage.isDirectory, hk _ (hb.append hsteps), kindAmong]
    by_cases hfile : Path.text root (base ++ (dir ++ [c])) ∈ names
    · rw [if_pos hfile]
      exact ⟨false, rfl, fun h => Bool.noConfusion h, fun h => absurd ⟨hsteps, hfile⟩ h⟩
    · rw [if_neg hfile]
      have hbelow : Listing.isDirectory names (Path.text root (base ++ (dir ++ [c]))) = true := by
        rcases r with _ | ⟨x, r⟩
        · exact absurd hmem hfile
        · refine hdir.2 ⟨x, r, ?_, ?_⟩
          · simpa using hb.append hr
          · simpa using hmem
      rw [if_pos hbelow]
      exact ⟨true, rfl, fun _ h => hfile h.2, fun _ => rfl⟩

section Memory

variable {slot : Nat} (hm : v.medium = .memory slot) (hn : Normal true (st.files slot).keys)

include hm

theorem list_memory (path : String) :
    st.list v path = .ok (Listing.children (st.files slot).keys path) := by
  rw [list, hm]
  rfl

theorem stat_memory (path : String) :
    st.stat v path = found path (kindAmong (st.files slot).keys path) := by
  rw [stat, hm]
  simp only [Files.stat?, Files.isFile, kindAmong, decide_eq_true_eq]

/-- The files that can be read are those that the table holds. -/
theorem exists_read_memory (path : String) :
    (∃ content, st.read v path = .ok content) ↔ path ∈ (st.files slot).keys := by
  rw [← Table.isSome_find?, read, hm]
  simp only
  rcases (st.files slot).find? path with _ | content
  · simp
  · simp

section Keys

variable {root : Bool} {file : List String → Prop} (hb : AllSteps base)
  (hfile : ∀ f, file f → AllSteps f)
  (hkeys : ∀ k, k ∈ (st.files slot).keys ↔ ∃ f, file f ∧ k = Path.text root (base ++ f))

include hb hfile hkeys

omit hm in
theorem normal_of_keys : Normal root (st.files slot).keys := by
  intro k hk
  obtain ⟨f, hf, rfl⟩ := (hkeys k).1 hk
  exact ⟨_, hb.append (hfile f hf), rfl⟩

/-- A memory that has the files of a tree below a directory, and no others, shows the tree. -/
theorem shows_of_keys : st.Shows v root base file := by
  have hpredicate : (fun f => AllSteps f ∧ Path.text root (base ++ f) ∈ (st.files slot).keys) =
      file := by
    funext f
    refine propext ⟨fun ⟨hsteps, hmem⟩ => ?_, fun hf => ⟨hfile f hf, (hkeys _).2 ⟨f, hf, rfl⟩⟩⟩
    obtain ⟨f', hf', heq⟩ := (hkeys _).1 hmem
    obtain ⟨-, heq⟩ := Path.text_injective (hb.append hsteps) (hb.append (hfile f' hf')) heq
    exact List.append_cancel_left heq ▸ hf'
  rw [← hpredicate]
  exact shows_names (normal_of_keys hb hfile hkeys) hb (fun _ _ => list_memory hm _)
    fun _ _ => stat_memory hm _

end Keys

include hn

theorem shows_memory (hb : AllSteps base) :
    st.Shows v true base fun f => AllSteps f
      ∧ Path.text true (base ++ f) ∈ (st.files slot).keys :=
  shows_names hn hb (fun _ _ => list_memory hm _) fun _ _ => stat_memory hm _

/-- Below a directory that is not from the root there is nothing, unless it is no directory at all
and the names from the root are taken for names below it. -/
theorem shows_relative (hb : AllSteps base)
    (hempty : base = [] → Listing.children (st.files slot).keys "" = []) :
    st.Shows v false base fun _ => False where
  base_steps := hb
  file_steps := fun _ h => h.elim
  list := by
    intro dir hd
    refine ⟨[], ?_, fun c => by simp⟩
    rw [list_memory hm]
    by_cases he : base ++ dir = []
    · rw [he]
      exact congrArg Except.ok (hempty (List.append_eq_nil_iff.1 he).1)
    · rw [Listing.children_relative hn (hb.append hd) he]
  isDirectory := fun _ _ _ h => h.elim

/-- A scan that starts nowhere is stopped by the first name from the root. -/
theorem children_nowhere {n : Nat} {name : String} {entries : List Entry}
    (h : Scan.levels st (n + 1) (Project.top name v "") = ⟨entries, none⟩) :
    Listing.children (st.files slot).keys "" = [] := by
  obtain ⟨names, below, hl, hc, -⟩ := Scan.levels_eq h
  have hl' : st.list v "" = .ok names := hl
  rw [list_memory hm] at hl'
  cases hl'
  rcases hch : Listing.children (st.files slot).keys "" with _ | ⟨c, r⟩
  · rfl
  · exfalso
    rw [hch] at hc
    obtain ⟨b, hd, -⟩ := (Scan.children_inv hc).1 c (by simp)
    have hmem : c ∈ Listing.children (st.files slot).keys "" := by simp [hch]
    rw [Listing.children, List.mem_eraseDups, List.mem_filterMap] at hmem
    obtain ⟨k, hk, hchild⟩ := hmem
    obtain ⟨cs, hcs, rfl⟩ := hn k hk
    have hstep : IsStep c := by
      rw [Listing.childOf?_nowhere hcs] at hchild
      exact hcs c (List.mem_of_mem_head? hchild)
    have hc' : AllSteps [c] := hstep.allSteps
    have hphys : ((Project.top name v "").normal.child c).physical = Path.text false [c] :=
      Path.join_text_step false AllSteps.nil hstep
    have hvol : (Project.top name v "").normal.volume = v := rfl
    rw [hphys, hvol, Storage.isDirectory, stat_memory hm, kindAmong] at hd
    have hno : Path.text false [c] ∉ (st.files slot).keys := by
      intro hmem
      obtain ⟨ds, hds, he⟩ := hn _ hmem
      exact Bool.noConfusion (Path.text_injective hc' hds he).1
    rw [if_neg hno, Listing.isDirectory_relative hn hc' (by simp)] at hd
    simp [found, Except.map] at hd

end Memory

section Archive

variable {slot : Nat} {a : Archive} (hm : v.medium = .archive slot) (ha : st.archive slot = a)

theorem memberName_relative {path : String} (h : Path.startsAtRoot path = false) :
    Archive.memberName path = path := by
  rw [Archive.memberName, ← String.toList_inj, String.toList_ofList]
  rcases hl : path.toList with _ | ⟨c, r⟩
  · rfl
  · rw [Path.startsAtRoot, hl] at h
    rw [List.dropWhile_cons_of_neg]
    simpa using h

theorem memberName_text {cs : List String} (h : AllSteps cs) :
    Archive.memberName (Path.text false cs) = Path.text false cs :=
  memberName_relative (Path.startsAtRoot_text false h)

include hm ha

theorem read_archive (path : String) : st.read v path = a.read path := by
  rw [read, hm, ← ha]

theorem list_archive {cs : List String} (h : AllSteps cs) :
    st.list v (Path.text false cs) = .ok (Listing.children a.files (Path.text false cs)) := by
  rw [list, hm, ← ha]
  simp only [Archive.list, memberName_text h]

theorem stat_archive (hd : a.directories = []) {cs : List String} (h : AllSteps cs) :
    st.stat v (Path.text false cs) =
      found (Path.text false cs) (kindAmong a.files (Path.text false cs)) := by
  rw [stat, hm]
  simp only [ha, Archive.stat?, Archive.isFile, Archive.isDirectory, memberName_text h, hd,
    List.not_mem_nil, decide_false, Bool.false_or, kindAmong, decide_eq_true_eq]

theorem shows_archive (hd : a.directories = []) (hn : Normal false a.files) :
    st.Shows v false [] fun f => AllSteps f ∧ Path.text false f ∈ a.files :=
  shows_names hn AllSteps.nil (fun _ h => list_archive hm ha h) fun _ h => stat_archive hm ha hd h

end Archive

theorem length_le_longest {names : List String} {n : String} (h : n ∈ names) :
    n.length ≤ longest names := by
  have hfold : ∀ (ls : List Nat) (k : Nat), k ≤ ls.foldl max k ∧ ∀ l ∈ ls, l ≤ ls.foldl max k := by
    intro ls
    induction ls with
    | nil => simp
    | cons l r ih =>
      intro k
      obtain ⟨hk, hr⟩ := ih (max k l)
      refine ⟨by rw [List.foldl_cons]; omega, fun x hx => ?_⟩
      rw [List.foldl_cons]
      rcases List.mem_cons.1 hx with rfl | hx
      · omega
      · exact hr x hx
  exact (hfold _ 0).2 _ (List.mem_map_of_mem h)

/-- A path is at least as long as it has steps. -/
theorem length_le_text (root : Bool) : ∀ {cs : List String}, AllSteps cs →
    cs.length ≤ (Path.text root cs).length
  | [], _ => Nat.zero_le _
  | c :: r, h => by
    have hr : r.length ≤ (Path.text false r).length :=
      length_le_text false fun x hx => h x (List.mem_cons_of_mem _ hx)
    have hc : 0 < c.length := by
      rw [Nat.pos_iff_ne_zero]
      exact fun he => (h c (by simp)).1 (String.length_eq_zero_iff.1 he)
    rcases r with _ | ⟨d, r⟩
    · simp only [Path.text, String.intercalate_singleton, String.length_append, List.length_cons,
        List.length_nil]
      omega
    · simp only [Path.text, String.intercalate_cons_cons, String.length_append, List.length_cons]
        at hr ⊢
      simp only [Bool.false_eq_true, ↓reduceIte, String.length_empty] at hr
      omega

end Bindery.Storage
