import Bindery.Proofs.IndexLookup
import Bindery.Proofs.PackageOutcome
import Mathlib.Data.List.Induction

/-!
# An account of the parts

Of the parts that are put into an archive, the first that can be read takes a place, and later ones
for that place are dropped. So the members of the archive are known from the parts, and so is what
it skips: `contents_account`.
-/

namespace Bindery

section Firsts

variable {α β γ : Type} [DecidableEq γ] {key : β → γ}

theorem nodup_map_firsts : ∀ l : List β, ((firsts key l).map key).Nodup
  | [] => .nil
  | a :: r => by
    rw [firsts, List.map_cons, List.nodup_cons]
    refine ⟨fun h => ?_, ?_⟩
    · obtain ⟨b, hb, hkey⟩ := List.mem_map.1 h
      exact of_decide_eq_true (List.mem_filter.1 hb).2 hkey
    · exact (nodup_map_firsts r).sublist (List.filter_sublist.map key)

/-- The first elements come in the order in which their keys come up. -/
theorem pairwise_firsts (g : α → Option β) : ∀ l : List α,
    (firsts key (l.filterMap g)).Pairwise fun a b =>
      l.findIdx (fun x => (g x).any (key · = key a)) <
        l.findIdx (fun x => (g x).any (key · = key b))
  | [] => .nil
  | x :: r => by
    have ih := pairwise_firsts g r
    rcases hx : g x with _ | m
    · rw [List.filterMap_cons_none hx]
      refine ih.imp fun {a b} hab => ?_
      rw [List.findIdx_cons, List.findIdx_cons, hx]
      exact Nat.succ_lt_succ hab
    · have hlater : ∀ b, key b ≠ key m →
          (x :: r).findIdx (fun x => (g x).any (key · = key b)) =
            r.findIdx (fun x => (g x).any (key · = key b)) + 1 := by
        intro b hb
        simp [List.findIdx_cons, hx, Ne.symm hb]
      rw [List.filterMap_cons_some hx, firsts, List.pairwise_cons]
      refine ⟨fun b hb => ?_, ?_⟩
      · rw [hlater b (of_decide_eq_true (List.mem_filter.1 hb).2), List.findIdx_cons, hx]
        simp
      · refine (ih.filter _).imp_of_mem fun {a b} ha hb hab => ?_
        rw [hlater a (of_decide_eq_true (List.mem_filter.1 ha).2),
          hlater b (of_decide_eq_true (List.mem_filter.1 hb).2)]
        exact Nat.succ_lt_succ hab

end Firsts

namespace Part

/-- Whether a part has some place in an archive and can be read. -/
def gives (st : Storage) (name : String) (x : Part) : Bool :=
  x.name? = some name && (x.content st).isOk

/-- Whether an archive skips a part behind others, where some places have been taken before: it has
no place, or it cannot be read and none of the others has taken its place. -/
def isSkipped (st : Storage) (taken : List String) (before : List Part) (x : Part) : Bool :=
  match x.name? with
  | none => true
  | some name => !(x.content st).isOk && name ∉ taken && !before.any (gives st name)

variable {st : Storage} {x : Part}

theorem gives_eq (name : String) : x.gives st name = (x.member? st).any (·.name = name) := by
  unfold gives member?
  rcases x.name? with _ | n
  · rfl
  · rcases x.content st with e | bytes
    · simp [Except.isOk, Except.toBool, Except.toOption]
    · simp [Except.isOk, Except.toBool, Except.toOption]

end Part

namespace Contents

variable {st : Storage}

/-- The members of an archive and the files that it skips, by the parts that are put into it, where
some places have been taken before. -/
structure Account (st : Storage) (taken : List String) (parts : List Part)
    (members : List Zip.NewMember) (skipped : List String) : Prop where
  nodup : (members.map (·.name)).Nodup
  mem_names : ∀ name, name ∈ members.map (·.name) ↔
    name ∉ taken ∧ ∃ x ∈ parts, x.gives st name = true
  bytes : ∀ m ∈ members, ∃ x, parts.find? (·.gives st m.name) = some x
    ∧ x.content st = .ok m.content
  order : members.Pairwise fun a b =>
    parts.findIdx (·.gives st a.name) < parts.findIdx (·.gives st b.name)
  skipped : skipped = (parts.zipIdx.filter fun e => e.1.isSkipped st taken (parts.take e.2)).map
    (·.1.record.physical)

/-- The members of parts are the first of each name, but for the places taken before. -/
theorem members_foldl_firsts (st : Storage) : ∀ (parts : List Part) (c : Contents),
    (parts.foldl (·.add st ·) c).members =
      c.members ++ (firsts (·.name) (parts.filterMap (·.member? st))).filter (·.name ∉ c.names)
  | [], c => by simp [firsts]
  | p :: r, c => by
    rw [List.foldl_cons, members_foldl_firsts st r]
    rcases hp : p.member? st with _ | m
    · have hmembers := members_add_of_no_member hp c
      rw [List.filterMap_cons_none hp, names, hmembers, names]
    · rw [List.filterMap_cons_some hp, firsts, add_of_member hp]
      by_cases hin : m.name ∈ c.names
      · have hdrop : ∀ n : Zip.NewMember, (decide (n.name ∉ c.names) && decide (n.name ≠ m.name)) =
            decide (n.name ∉ c.names) := by
          intro n
          by_cases hn : n.name = m.name
          · simp [hn, hin]
          · simp [hn]
        rw [if_pos hin, List.filter_cons_of_neg (by simpa using hin), List.filter_filter]
        simp only [hdrop]
      · have htaken : ∀ n : Zip.NewMember,
            decide (n.name ∉ names { c with members := c.members ++ [m] }) =
              (decide (n.name ∉ c.names) && decide (n.name ≠ m.name)) := by
          intro n
          simp [names, not_or]
        rw [if_neg hin, List.filter_cons_of_pos (by simpa using hin), List.filter_filter]
        simp only [htaken, List.append_assoc, List.singleton_append]

theorem mem_names_add (c : Contents) (x : Part) (name : String) :
    name ∈ (c.add st x).names ↔ name ∈ c.names ∨ x.gives st name = true := by
  rw [Part.gives_eq]
  rcases hx : x.member? st with _ | m
  · rw [names, members_add_of_no_member hx, names]
    simp
  · rw [add_of_member hx]
    split_ifs with hin
    · simp only [Option.any_some, decide_eq_true_eq]
      exact ⟨.inl, fun h => h.elim id fun h => h ▸ hin⟩
    · simp [names, eq_comm]

theorem mem_names_foldl (st : Storage) : ∀ (parts : List Part) (c : Contents) (name : String),
    name ∈ (parts.foldl (·.add st ·) c).names ↔
      name ∈ c.names ∨ ∃ x ∈ parts, x.gives st name = true
  | [], c, name => by simp
  | x :: r, c, name => by
    rw [List.foldl_cons, mem_names_foldl st r, mem_names_add, or_assoc, List.exists_mem_cons_iff]

theorem skipped_add (c : Contents) (x : Part) : (c.add st x).skipped = c.skipped ++
    if x.isSkipped st c.names [] then [x.record.physical] else [] := by
  unfold add Part.isSkipped
  rcases x.name? with _ | name
  · rfl
  · by_cases hin : name ∈ c.names
    · simp [hin]
    · rcases x.content st with e | bytes <;> simp [hin, skip, Except.isOk, Except.toBool]

theorem isSkipped_foldl (before : List Part) (c : Contents) (x : Part) :
    x.isSkipped st (before.foldl (·.add st ·) c).names [] = x.isSkipped st c.names before := by
  unfold Part.isSkipped
  rcases x.name? with _ | name
  · rfl
  · have htaken : decide (name ∉ (before.foldl (·.add st ·) c).names) =
        (decide (name ∉ c.names) && !before.any (·.gives st name)) := by
      rw [Bool.eq_iff_iff]
      simp [mem_names_foldl]
    simp [htaken, Bool.and_assoc]

theorem skipped_foldl (parts : List Part) (c : Contents) :
    (parts.foldl (·.add st ·) c).skipped = c.skipped ++
      (parts.zipIdx.filter fun e => e.1.isSkipped st c.names (parts.take e.2)).map
        (·.1.record.physical) := by
  induction parts using List.reverseRecOn with
  | nil => simp
  | append_singleton l x ih =>
    have hfront : (l.zipIdx.filter fun e => e.1.isSkipped st c.names ((l ++ [x]).take e.2)) =
        l.zipIdx.filter fun e => e.1.isSkipped st c.names (l.take e.2) := by
      refine List.filter_congr fun e he => ?_
      have hplace : e.2 < l.length := List.snd_lt_of_mem_zipIdx he
      rw [List.take_append_of_le_length (Nat.le_of_lt hplace)]
    rw [List.foldl_append, List.foldl_cons, List.foldl_nil, skipped_add, ih, isSkipped_foldl,
      List.zipIdx_append, List.filter_append, List.map_append, hfront, List.append_assoc]
    congr 2
    by_cases hx : x.isSkipped st c.names l = true <;> simp [hx]

theorem account_foldl (st : Storage) (parts : List Part) (c : Contents) : ∃ members skipped,
    (parts.foldl (·.add st ·) c).members = c.members ++ members
      ∧ (parts.foldl (·.add st ·) c).skipped = c.skipped ++ skipped
      ∧ Account st c.names parts members skipped := by
  let given := parts.filterMap (·.member? st)
  have hmembers := members_foldl_firsts st parts c
  have hgives : ∀ name, (fun x : Part => x.gives st name) =
      fun x => (x.member? st).any (·.name = name) := fun name => funext fun x => Part.gives_eq name
  refine ⟨(firsts (·.name) given).filter (·.name ∉ c.names), _, hmembers, skipped_foldl parts c, ?_⟩
  have hfresh : ∀ m ∈ (firsts (·.name) given).filter (·.name ∉ c.names),
      m ∈ firsts (·.name) given ∧ m.name ∉ c.names := fun m hm => by simpa using hm
  constructor
  case nodup => exact (nodup_map_firsts given).sublist (List.filter_sublist.map _)
  case mem_names =>
    intro name
    have hname := mem_names_foldl st parts c name
    rw [names, hmembers, List.map_append, List.mem_append] at hname
    constructor
    · intro hin
      obtain ⟨m, hm, rfl⟩ := List.mem_map.1 hin
      have hnot := (hfresh m hm).2
      exact ⟨hnot, (hname.1 (.inr hin)).resolve_left hnot⟩
    · rintro ⟨hnot, hx⟩
      exact (hname.2 (.inr hx)).resolve_left hnot
  case bytes =>
    intro m hm
    have hfind : given.find? (·.name = m.name) = some m := by
      rw [← find?_key_firsts]
      exact find?_key_of_nodup (nodup_map_firsts given) (hfresh m hm).1
    rw [List.find?_filterMap] at hfind
    obtain ⟨x, hx, hxm⟩ := Option.bind_eq_some_iff.1 hfind
    exact ⟨x, by rw [hgives]; exact hx, (Part.member?_inv hxm).2⟩
  case order =>
    simp only [hgives]
    exact (pairwise_firsts _ parts).sublist List.filter_sublist
  case skipped => rfl

end Contents

namespace Project

/-- An archive holds its manifest, and of the parts of the selected modules the first of each other
name that can be read; it skips what has no place and what cannot be read before its place is
taken. -/
theorem contents_account (st : Storage) (p : Project) (manifest : Option String)
    (extensions : List String) (parts : Record → List Part) {style : Style}
    (htime : style.time.IsValid) :
    ∃ stamp members, style.stamp = .ok stamp
      ∧ (p.contents st manifest extensions parts).members =
        (manifest.map fun text => ⟨Manifest.entryName, text.toUTF8⟩).toList ++ members
      ∧ (p.contents st manifest extensions parts).names.Nodup
      ∧ Contents.Account st (manifest.map fun _ => Manifest.entryName).toList
        ((p.modulesWith st extensions).flatMap parts) members
        (p.contents st manifest extensions parts).skipped := by
  let start : Contents :=
    ⟨(manifest.map fun text => ⟨Manifest.entryName, text.toUTF8⟩).toList, []⟩
  have htaken : start.names = (manifest.map fun _ => Manifest.entryName).toList := by
    cases manifest <;> rfl
  obtain ⟨members, skipped, hmembers, hskipped, haccount⟩ :=
    Contents.account_foldl st ((p.modulesWith st extensions).flatMap parts) start
  rw [htaken] at haccount
  refine ⟨⟨style.method, style.time⟩, members, if_pos htime, hmembers, ?_, ?_⟩
  · have hnames : (p.contents st manifest extensions parts).names =
        (manifest.map fun _ => Manifest.entryName).toList ++ members.map (·.name) := by
      rw [← htaken, Contents.names, Contents.names, ← List.map_append, ← hmembers]
      rfl
    rw [hnames, List.nodup_append]
    refine ⟨by cases manifest <;> simp, haccount.nodup, ?_⟩
    rintro name hname _ hmem rfl
    exact ((haccount.mem_names name).1 hmem).1 hname
  · have heq : (p.contents st manifest extensions parts).skipped = skipped :=
      hskipped.trans (List.nil_append _)
    rwa [heq]

open Plan (pairStorage pairVolume)

/-- A project of several files for one place, one for the place of the manifest, and a plugin. -/
def crowdedProject : Project :=
  (new "p" pairVolume).list (["/gone.v", "/A.v", "/B.v", "/lost.v"].map
      (⟨some pairVolume, ["A"], ·, some "p"⟩)
    ++ [⟨some pairVolume, ["coq-pkg"], "/A.json", some "p"⟩,
      ⟨some pairVolume, ["P"], "/P.cma", some "p"⟩])

theorem contents_account_crowded :
    Style.standard.time.IsValid
      ∧ crowdedProject.contents (pairStorage "a" "b") (some "m") [".v", ".json", ".cma"]
        Part.splitPlugin =
      ⟨[⟨"coq-pkg.json", "m".toUTF8⟩, ⟨"A.v", "a".toUTF8⟩, ⟨"P.cma", .empty⟩],
        ["/gone.v", "/P.cma.js"]⟩
      ∧ ∃ members, Contents.Account (pairStorage "a" "b") [Manifest.entryName]
        ((crowdedProject.modulesWith (pairStorage "a" "b") [".v", ".json", ".cma"]).flatMap
          Part.splitPlugin) members ["/gone.v", "/P.cma.js"] := by
  have htime : Style.standard.time.IsValid := by decide
  have heq : crowdedProject.contents (pairStorage "a" "b") (some "m")
      [".v", ".json", ".cma"] Part.splitPlugin =
    ⟨[⟨"coq-pkg.json", "m".toUTF8⟩, ⟨"A.v", "a".toUTF8⟩, ⟨"P.cma", .empty⟩],
      ["/gone.v", "/P.cma.js"]⟩ := by
    decide +kernel
  obtain ⟨stamp, members, -, -, -, haccount⟩ := contents_account (pairStorage "a" "b")
    crowdedProject (some "m") [".v", ".json", ".cma"] Part.splitPlugin htime
  rw [heq] at haccount
  exact ⟨htime, heq, members, haccount⟩

end Project

end Bindery
