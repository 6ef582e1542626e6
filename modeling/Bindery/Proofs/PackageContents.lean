import Bindery.Project.Package
import Bindery.Proofs.VolumeTree
import Bindery.Proofs.ModuleFile
import Mathlib.Data.List.Nodup

/-!
# What an archive holds

Parts of which none is skipped are members of the archive, each at its place, and besides what the
archive held before nothing else is: `holds_foldl_add`. Members of different names are the members
of the archive as a volume, `ofMembers_eq`, and are read by their names, `ofBytes_givesBack`.
-/

namespace Bindery

namespace Contents

variable {st : Storage}

/-- What adding parts gives, if none of them is skipped. -/
structure Holds (st : Storage) (parts : List Part) (c c' : Contents) : Prop where
  members : ∃ more, c'.members = c.members ++ more
    ∧ ∀ m ∈ more, ∃ p ∈ parts, p.name? = some m.name ∧ p.content st = .ok m.content
  named : ∀ p ∈ parts, ∃ name ∈ c'.names, p.name? = some name
  nodup : c.names.Nodup → c'.names.Nodup

theorem Holds.refl (c : Contents) : Holds st [] c c :=
  ⟨⟨[], by simp⟩, by simp, fun h => h⟩

theorem Holds.cons {c c₁ c₂ : Contents} {p : Part} {parts : List Part}
    (h₁ : Holds st [p] c c₁) (h₂ : Holds st parts c₁ c₂) : Holds st (p :: parts) c c₂ := by
  obtain ⟨more₁, hm₁, hfrom₁⟩ := h₁.members
  obtain ⟨more₂, hm₂, hfrom₂⟩ := h₂.members
  refine ⟨⟨more₁ ++ more₂, by rw [hm₂, hm₁, List.append_assoc], fun m hm => ?_⟩, fun x hx => ?_,
    fun hn => h₂.nodup (h₁.nodup hn)⟩
  · rcases List.mem_append.1 hm with hm | hm
    · obtain ⟨x, hx, hrest⟩ := hfrom₁ m hm
      exact ⟨x, by simp [List.mem_singleton.1 hx], hrest⟩
    · obtain ⟨x, hx, hrest⟩ := hfrom₂ m hm
      exact ⟨x, List.mem_cons_of_mem _ hx, hrest⟩
  · rcases List.mem_cons.1 hx with rfl | hx
    · obtain ⟨name, hname, hx⟩ := h₁.named x (by simp)
      refine ⟨name, ?_, hx⟩
      rw [names, hm₂, List.map_append]
      exact List.mem_append_left _ hname
    · exact h₂.named x hx

theorem Holds.mem_members {parts : List Part} {c c' : Contents} (h : Holds st parts c c')
    {m : Zip.NewMember} (hm : m ∈ c'.members) :
    m ∈ c.members ∨ ∃ p ∈ parts, p.name? = some m.name ∧ p.content st = .ok m.content := by
  obtain ⟨more, hmore, hfrom⟩ := h.members
  rw [hmore] at hm
  exact (List.mem_append.1 hm).imp_right (hfrom m)

theorem Holds.mem_names {parts : List Part} {c c' : Contents} (h : Holds st parts c c')
    (n : String) : n ∈ c'.names ↔ n ∈ c.names ∨ ∃ p ∈ parts, p.name? = some n := by
  constructor
  · intro hn
    obtain ⟨m, hm, rfl⟩ := List.mem_map.1 hn
    rcases h.mem_members hm with hm | ⟨p, hp, hname, -⟩
    · exact .inl (List.mem_map_of_mem hm)
    · exact .inr ⟨p, hp, hname⟩
  · rintro (hn | ⟨p, hp, hname⟩)
    · obtain ⟨more, hmore, -⟩ := h.members
      rw [names, hmore, List.map_append]
      exact List.mem_append_left _ hn
    · obtain ⟨name, hmem, hname'⟩ := h.named p hp
      cases hname.symm.trans hname'
      exact hmem

theorem holds_add {c : Contents} {p : Part} (h : (c.add st p).skipped = []) :
    c.skipped = [] ∧ Holds st [p] c (c.add st p) := by
  unfold add at h ⊢
  split at h
  · simp [skip] at h
  · rename_i name hname
    split_ifs at h ⊢ with hin
    · refine ⟨h, ⟨[], by simp⟩, fun x hx => ?_, fun hn => hn⟩
      rw [List.mem_singleton.1 hx]
      exact ⟨name, hin, hname⟩
    · split at h
      · rename_i content hcontent
        refine ⟨h, ⟨[⟨name, content⟩], rfl, fun m hm => ?_⟩, fun x hx => ?_, fun hn => ?_⟩
        · rw [List.mem_singleton.1 hm]
          exact ⟨p, by simp, hname, hcontent⟩
        · rw [List.mem_singleton.1 hx]
          exact ⟨name, by simp [names], hname⟩
        · simp only [names, List.map_append, List.map_cons, List.map_nil]
          rw [List.nodup_append]
          refine ⟨hn, by simp, ?_⟩
          rintro x hx y hy rfl
          rw [List.mem_singleton.1 hy] at hx
          exact hin hx
      · simp [skip] at h

theorem holds_foldl_add : ∀ {parts : List Part} {c : Contents},
    (parts.foldl (·.add st ·) c).skipped = [] →
    c.skipped = [] ∧ Holds st parts c (parts.foldl (·.add st ·) c)
  | [], c, h => ⟨h, .refl c⟩
  | p :: r, c, h => by
    rw [List.foldl_cons] at h ⊢
    obtain ⟨hskip, hrest⟩ := holds_foldl_add h
    obtain ⟨hskip', hfirst⟩ := holds_add hskip
    exact ⟨hskip', hfirst.cons hrest⟩

end Contents

/-- Of things with different keys the one with a key is found by it. -/
theorem find?_key_of_nodup {α β : Type} [DecidableEq β] {key : α → β} {l : List α}
    (h : (l.map key).Nodup) {x : α} (hx : x ∈ l) : l.find? (key · = key x) = some x := by
  obtain ⟨y, hy⟩ : ∃ y, l.find? (key · = key x) = some y :=
    Option.isSome_iff_exists.1 (List.find?_isSome.2 ⟨x, hx, by simp⟩)
  have hkey : key y = key x := by simpa using List.find?_some hy
  rw [hy, List.inj_on_of_nodup_map h (List.mem_of_find?_eq_some hy) hx hkey]

namespace Archive

theorem addMember_append {m : Zip.Member} : ∀ {ms : List Zip.Member},
    m.name ∉ ms.map (·.name) → addMember m ms = ms ++ [m]
  | [], _ => rfl
  | n :: r, h => by
    rw [List.map_cons, List.mem_cons, not_or] at h
    rw [addMember, if_neg (Ne.symm h.1), addMember_append h.2, List.cons_append]

theorem foldl_addMember : ∀ (more ms : List Zip.Member),
    ((ms ++ more).map (·.name)).Nodup →
    more.foldl (fun ms m => addMember m ms) ms = ms ++ more
  | [], ms, _ => by simp
  | m :: r, ms, h => by
    have hm : m.name ∉ ms.map (·.name) := by
      rw [List.map_append, List.nodup_append] at h
      exact fun hin => h.2.2 _ hin m.name (by simp) rfl
    rw [List.foldl_cons, addMember_append hm, foldl_addMember r _ (by simpa using h)]
    simp

theorem ofMembers_eq {ms : List Zip.Member} (h : (ms.map (·.name)).Nodup) :
    ofMembers ms = ⟨ms⟩ := by
  rw [ofMembers, foldl_addMember ms [] h]
  rfl

end Archive

/-- Members that are written are read back in order, with their names and contents. -/
def Zip.GivesBack (stamp : Stamp) (members : List NewMember) : Prop :=
  ∃ ms, Zip.read (Zip.write stamp members) = .ok ms
    ∧ ms.map (fun m => (m.name, m.content)) =
      members.map fun m => (m.name, (.ok m.content : Except Error ByteArray))

instance (stamp : Zip.Stamp) (members : List Zip.NewMember) :
    Decidable (Zip.GivesBack stamp members) :=
  match h : Zip.read (Zip.write stamp members) with
  | .ok ms =>
    decidable_of_iff
      (ms.map (fun m => (m.name, m.content)) =
        members.map fun m => (m.name, (.ok m.content : Except Error ByteArray)))
      ⟨fun he => ⟨ms, h, he⟩, fun ⟨_, h', he⟩ => by cases h.symm.trans h'; exact he⟩
  | .error _ => .isFalse fun ⟨_, h', _⟩ => by cases h.symm.trans h'

section GivesBack

variable {stamp : Zip.Stamp} {members : List Zip.NewMember}
  (h : Zip.GivesBack stamp members) (hn : (members.map (·.name)).Nodup)

include h hn

/-- Members of different names that are given back are all that the archive holds. -/
theorem ofBytes_givesBack : ∃ a, Archive.ofBytes (Zip.write stamp members) = .ok a
    ∧ a.members.map (·.name) = members.map (·.name)
    ∧ ∀ m ∈ members, ∀ path, Archive.memberName path = m.name → a.read path = .ok m.content := by
  obtain ⟨ms, hread, hms⟩ := h
  have hnames : ms.map (·.name) = members.map (·.name) := by
    have hfst := congrArg (List.map Prod.fst) hms
    simpa [List.map_map, Function.comp_def] using hfst
  refine ⟨⟨ms⟩, ?_, hnames, fun m hm path hpath => ?_⟩
  · rw [Archive.ofBytes, hread]
    exact congrArg Except.ok (Archive.ofMembers_eq (hnames ▸ hn))
  · have hpair : (m.name, (.ok m.content : Except Error ByteArray)) ∈
        ms.map fun m => (m.name, m.content) := by
      rw [hms]
      exact List.mem_map_of_mem hm
    obtain ⟨x, hx, hxm⟩ := List.mem_map.1 hpair
    obtain ⟨hname, hcontent⟩ := Prod.mk.inj hxm
    have hfind : ms.find? (·.name = Archive.memberName path) = some x := by
      rw [hpath, ← hname]
      exact find?_key_of_nodup (hnames ▸ hn) hx
    rw [Archive.read, hfind]
    exact hcontent

end GivesBack

end Bindery
