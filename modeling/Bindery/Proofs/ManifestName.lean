import Bindery.Project.FileName
import Bindery.Proofs.PathText
import Mathlib.Data.String.Basic

/-!
# Names of manifests

The name of the manifest beside an archive is the archive's, cut as many bytes before its end as
its extension has. If slashes follow the extension, the cut is not at its dot; it can fall inside a
character of it, and then there is no name: `FileName.exists_manifest_package_iff`. If nothing
follows it and it is the one that manifests have, the manifest has the name of the archive:
`FileName.manifest_eq_self_iff`.
-/

namespace Bindery

/-- Of two ways to cut a text, the one that cuts later cuts what the other leaves. -/
theorem exists_between {a b c d : String} (h : a ++ b = c ++ d)
    (hle : a.utf8ByteSize ≤ c.utf8ByteSize) : ∃ e, c = a ++ e ∧ b = e ++ d := by
  rw [← String.toList_inj, String.toList_append, String.toList_append,
    List.append_eq_append_iff] at h
  rcases h with ⟨e, hc, hb⟩ | ⟨e, ha, hd⟩
  · refine ⟨String.ofList e, ?_, ?_⟩ <;> simpa [← String.toList_inj]
  · -- What the first text has beyond the second is empty.
    have hsize : a.utf8ByteSize = c.utf8ByteSize + String.utf8Len e := by
      rw [← String.ofList_toList (s := a), ha, String.utf8ByteSize_ofList, String.utf8Len_append,
        ← String.utf8ByteSize_ofList, String.ofList_toList]
    obtain rfl : e = [] := String.utf8Len_eq_zero.1 (by omega)
    rw [List.append_nil, String.toList_inj] at ha
    rw [List.nil_append, String.toList_inj] at hd
    exact ⟨"", by rw [ha, String.append_empty], by rw [hd, String.empty_append]⟩

namespace Path

def slashes (n : Nat) : String := String.ofList (List.replicate n '/')

theorem utf8ByteSize_slashes (n : Nat) : (slashes n).utf8ByteSize = n := by
  rw [slashes, String.utf8ByteSize_ofList]
  induction n with
  | zero => rfl
  | succ n ih =>
    rw [List.replicate_succ, String.utf8Len_cons, ih]
    rfl

theorem slashes_add (m n : Nat) : slashes (m + n) = slashes m ++ slashes n := by
  rw [slashes, List.replicate_add, String.ofList_append]
  rfl

/-- How many slashes a path ends in. -/
def endSlashes (path : String) : Nat := (path.toList.reverse.takeWhile (· = '/')).length

theorem eq_trimmed_append (path : String) :
    path = String.ofList (trimmed path) ++ slashes (endSlashes path) := by
  have hslashes : path.toList.reverse.takeWhile (· = '/') =
      List.replicate (endSlashes path) '/' :=
    List.eq_replicate_iff.2 ⟨rfl, fun c hc => by simpa using List.mem_takeWhile_imp hc⟩
  have hsplit := List.takeWhile_append_dropWhile (p := (· = '/')) (l := path.toList.reverse)
  rw [hslashes, List.reverse_eq_iff.symm, List.reverse_append, List.reverse_replicate] at hsplit
  rw [← String.toList_inj, ← hsplit]
  simp [slashes, trimmed, Text.trimEnd]

theorem endSlashes_eq_zero {path : String} (h : path.toList.getLast? ≠ some '/') :
    endSlashes path = 0 := by
  rcases List.eq_nil_or_concat path.toList with hnil | ⟨front, c, hc⟩
  · simp [endSlashes, hnil]
  · rw [hc, List.concat_eq_append, List.getLast?_concat] at h
    have hslash : c ≠ '/' := fun he => h (congrArg some he)
    simp [endSlashes, hc, hslash]

/-- The extension of a path stands at its end, before the slashes. -/
theorem exists_extension {path ext : String} (h : extension? path = some ext) :
    ∃ front, path = front ++ ext ++ slashes (endSlashes path) := by
  obtain ⟨front, hfront⟩ := exists_trimmed_basename path
  have hpath := eq_trimmed_append path
  unfold extension? at h
  split at h
  · rename_i c stem after hsplit
    cases h
    have hends : String.ofList (trimmed path) =
        String.ofList (front ++ c :: stem) ++ ("." ++ String.ofList after) := by
      rw [hfront, Text.splitLast?_inv hsplit, ← String.toList_inj]
      simp
    rw [hends] at hpath
    exact ⟨String.ofList (front ++ c :: stem), hpath⟩
  · cases h

end Path

namespace FileName

open Bindery.Path (endSlashes slashes)

variable {archive file ext : String}

theorem dropBytes_append : ∀ front back : List Char,
    dropBytes (String.utf8Len front) (front ++ back) = some back
  | [], back => by
    rw [String.utf8Len_nil, List.nil_append, dropBytes]
  | c :: r, back => by
    obtain ⟨n, hn⟩ : ∃ n, String.utf8Len (c :: r) = n + 1 :=
      Nat.exists_eq_add_one.2 (by have := c.utf8Size_pos; simp only [String.utf8Len_cons]; omega)
    have hsize : n + 1 - c.utf8Size = String.utf8Len r := by
      rw [← hn, String.utf8Len_cons, Nat.add_sub_cancel]
    rw [hn, List.cons_append, dropBytes, hsize, dropBytes_append r back, if_pos]
    rw [← hn, String.utf8Len_cons]
    exact Nat.le_add_left _ _

theorem dropBytes_eq_some_iff : ∀ {n : Nat} {cs rest : List Char},
    dropBytes n cs = some rest ↔ ∃ front, cs = front ++ rest ∧ String.utf8Len front = n := by
  intro n cs rest
  constructor
  · intro h
    induction cs generalizing n with
    | nil =>
      cases n <;> cases h
      exact ⟨[], rfl, rfl⟩
    | cons c r ih =>
      cases n with
      | zero =>
        cases h
        exact ⟨[], rfl, rfl⟩
      | succ n =>
        rw [dropBytes] at h
        split_ifs at h with hc
        obtain ⟨front, rfl, hfront⟩ := ih h
        exact ⟨c :: front, rfl, by rw [String.utf8Len_cons, hfront]; omega⟩
  · rintro ⟨front, rfl, rfl⟩
    exact dropBytes_append front rest

theorem manifest_of_none (h : Path.extension? archive = none) :
    manifest archive = .ok (archive ++ ".json") := by
  unfold manifest
  rw [h]

/-- The manifest's name is what stands before some end of the archive's name that is as long as its
extension. -/
theorem manifest_eq_ok_iff (h : Path.extension? archive = some ext) :
    manifest archive = .ok file ↔ ∃ front back, archive = front ++ back
      ∧ back.utf8ByteSize = ext.utf8ByteSize ∧ file = front ++ ".json" := by
  constructor
  · intro hok
    unfold manifest at hok
    rw [h] at hok
    dsimp only at hok
    split at hok
    · rename_i rest hrest
      cases hok
      obtain ⟨back, hback, hsize⟩ := dropBytes_eq_some_iff.1 hrest
      refine ⟨String.ofList rest.reverse, String.ofList back.reverse, ?_, ?_, rfl⟩
      · rw [← String.ofList_append, ← List.reverse_append, ← hback, List.reverse_reverse,
          String.ofList_toList]
      · rw [String.utf8ByteSize_ofList, String.utf8Len_reverse, hsize]
    · cases hok
  · rintro ⟨front, back, rfl, hsize, rfl⟩
    have hdrop : dropBytes ext.utf8ByteSize (front ++ back).toList.reverse =
        some front.toList.reverse := by
      refine dropBytes_eq_some_iff.2 ⟨back.toList.reverse, ?_, ?_⟩
      · rw [String.toList_append, List.reverse_append]
      · rw [String.utf8Len_reverse, ← String.utf8ByteSize_ofList, String.ofList_toList, hsize]
    unfold manifest
    rw [h]
    dsimp only
    rw [hdrop]
    dsimp only
    rw [List.reverse_reverse, String.ofList_toList]

/-- The extension of a file, if it has one, is not cut inside a character by a cut as many bytes
behind its start as slashes follow it. -/
def CutsWhole (file : String) : Prop :=
  ∀ ext, Path.extension? file = some ext → endSlashes file < ext.utf8ByteSize →
    String.Pos.Raw.IsValid ext ⟨endSlashes file⟩

theorem exists_manifest_iff : (∃ file, manifest archive = .ok file) ↔ CutsWhole archive := by
  unfold CutsWhole
  rcases hext : Path.extension? archive with _ | ext
  · simp [manifest_of_none hext]
  obtain ⟨lead, hlead⟩ := Path.exists_extension hext
  simp only [manifest_eq_ok_iff hext, Option.some.injEq, forall_eq']
  generalize endSlashes archive = k at *
  subst hlead
  constructor
  · rintro ⟨_, front, back, hcut, hsize, -⟩ hlt
    have hbytes := congrArg String.utf8ByteSize hcut
    simp only [String.utf8ByteSize_append, Path.utf8ByteSize_slashes] at hbytes
    rw [String.append_assoc] at hcut
    obtain ⟨a, rfl, ha⟩ := exists_between hcut (by omega)
    rw [String.utf8ByteSize_append] at hbytes
    obtain ⟨b, hb, -⟩ := exists_between ha.symm (by omega)
    refine String.Pos.Raw.isValid_iff_exists_append.2 ⟨a, b, hb, ?_⟩
    ext
    simp
    omega
  · intro hvalid
    by_cases hlt : k < ext.utf8ByteSize
    · obtain ⟨a, b, rfl, ha⟩ := String.Pos.Raw.isValid_iff_exists_append.1 (hvalid hlt)
      have ha : k = a.utf8ByteSize := congrArg String.Pos.Raw.byteIdx ha
      refine ⟨_, lead ++ a, b ++ slashes k, by simp only [String.append_assoc], ?_, rfl⟩
      simp only [String.utf8ByteSize_append, Path.utf8ByteSize_slashes]
      omega
    · refine ⟨_, lead ++ ext ++ slashes (k - ext.utf8ByteSize), slashes ext.utf8ByteSize, ?_,
        Path.utf8ByteSize_slashes _, rfl⟩
      have hk : k - ext.utf8ByteSize + ext.utf8ByteSize = k := Nat.sub_add_cancel (by omega)
      rw [← hk, Path.slashes_add, hk]
      simp only [String.append_assoc]

/-- Only slashes at the end of an archive's name can leave its manifest without one. -/
theorem exists_manifest (h : archive.toList.getLast? ≠ some '/') :
    ∃ file, manifest archive = .ok file := by
  refine exists_manifest_iff.2 fun ext _ _ => ?_
  rw [Path.endSlashes_eq_zero h]
  exact String.Pos.Raw.isValid_iff_exists_append.2 ⟨"", ext, by rw [String.empty_append], rfl⟩

/-- Only archives with the extension of manifests share their names. -/
theorem manifest_eq_self_iff : manifest archive = .ok archive ↔
    Path.extension? archive = some ".json" ∧ endSlashes archive = 0 := by
  rcases hext : Path.extension? archive with _ | ext
  · have hlonger : archive ++ ".json" ≠ archive := by
      simp
    simp [manifest_of_none hext, hlonger]
  obtain ⟨lead, hlead⟩ := Path.exists_extension hext
  rw [manifest_eq_ok_iff hext, Option.some.injEq]
  constructor
  · rintro ⟨front, back, hcut, hsize, hself⟩
    have hnone : endSlashes archive = 0 := by
      refine Path.endSlashes_eq_zero ?_
      rw [hself, Text.getLast?_append (by decide)]
      decide
    obtain rfl : back = ".json" := by
      simpa using hcut.symm.trans hself
    rw [hnone] at hlead
    have hends : lead ++ ext = front ++ ".json" := by
      rw [← hcut, hlead]
      simp [slashes]
    have hbytes := congrArg String.utf8ByteSize hends
    simp only [String.utf8ByteSize_append, hsize] at hbytes
    obtain ⟨e, rfl, hext⟩ := exists_between hends (by omega)
    rw [hext, String.utf8ByteSize_append] at hsize
    obtain rfl : e = "" := String.utf8ByteSize_eq_zero_iff.1 (by omega)
    exact ⟨hext, hnone⟩
  · rintro ⟨rfl, hnone⟩
    rw [hnone] at hlead
    exact ⟨lead, ".json", by rw [hlead]; simp [slashes], rfl, by rw [hlead]; simp [slashes]⟩

/-- The package extension is not the extension of manifests. -/
theorem package_json_iff : Path.extension? (package file) = some ".json"
      ∧ endSlashes (package file) = 0 ↔
    Path.extension? file = some ".json" ∧ endSlashes file = 0 := by
  unfold package
  split_ifs with hfile
  · exact Iff.rfl
  · have hfile : Path.extension? file = none := by simpa using hfile
    refine ⟨fun ⟨hext, hnone⟩ => ?_, fun ⟨hext, _⟩ => ?_⟩
    · obtain ⟨lead, hlead⟩ := Path.exists_extension hext
      have hlast := congrArg (·.toList.getLast?) hlead
      rw [hnone] at hlast
      simp [slashes, packageExtension] at hlast
    · rw [hfile] at hext
      cases hext

theorem exists_manifest_package_iff :
    (∃ name, manifest (package file) = .ok name) ↔ CutsWhole file := by
  unfold package
  split_ifs with hfile
  · exact exists_manifest_iff
  · have hfile : Path.extension? file = none := by simpa using hfile
    have hlast : (file ++ packageExtension).toList.getLast? ≠ some '/' := by
      rw [Text.getLast?_append (by decide)]
      decide
    simp only [CutsWhole, hfile, exists_manifest hlast, reduceCtorEq, false_imp_iff, implies_true]

theorem manifest_error {e : Error} (h : manifest archive = .error e) : e = .brokenName archive := by
  unfold manifest at h
  split at h
  · cases h
  · split at h
    · cases h
    · exact (Except.error.inj h).symm

end FileName

end Bindery
