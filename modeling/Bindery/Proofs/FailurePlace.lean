import Bindery.Proofs.BytePosition
import Bindery.Proofs.OutputManifest
import Bindery.Proofs.PackageRoundTrip

/-!
# Places of failures

A report takes the name of a staged file apart and reads the source of that name once more. Where
this leads back to the source that was sent, the place that the report gives is the line and column
of the failure in the bytes that were sent: `compile_failure_place`.
-/

namespace Bindery

open Bindery.Path (AllSteps)

namespace Diagnostic

/-- A dot for a slash, as where the name of a file is read as a dotted one. -/
def dotOfSlash (c : Char) : Char := if c = '/' then '.' else c

theorem map_dotOfSlash_step {c : String} (h : '/' ∉ c.toList) :
    c.toList.map dotOfSlash = c.toList := by
  have hid : ∀ x ∈ c.toList, dotOfSlash x = id x := by
    intro x hx
    have hne : x ≠ '/' := fun he => h (he ▸ hx)
    exact if_neg hne
  rw [List.map_congr_left hid, List.map_id]

theorem map_dotOfSlash : ∀ {name : Logical}, (∀ c ∈ name, '/' ∉ c.toList) →
    ("/".intercalate name).toList.map dotOfSlash = name.dotted.toList
  | [], _ => rfl
  | [c], h => by
    simpa [Logical.dotted] using map_dotOfSlash_step (h c List.mem_cons_self)
  | c :: d :: r, h => by
    obtain ⟨hc, hr⟩ := List.forall_mem_cons.1 h
    have ih := map_dotOfSlash hr
    have hdot : "/".toList.map dotOfSlash = ".".toList := rfl
    rw [Logical.dotted] at ih ⊢
    simp only [String.intercalate_cons_cons, String.toList_append, List.map_append, ih,
      map_dotOfSlash_step hc, hdot]

/-- The logical path of a source is read from its name as a file. -/
theorem logical?_file {name : Logical} (h : name.Identifiers) {sep : String}
    (hsep : sep = "" ∨ sep = "/") :
    logical? (sep ++ "/".intercalate name ++ sourceExtension) = some name := by
  have hname : Logical.ofDotted name.dotted = name :=
    Logical.ofDotted_dotted h.dotless fun c hc => (h c hc).1
  have hstem : Text.before? sourceExtension (sep ++ "/".intercalate name ++ sourceExtension) =
      some (sep ++ "/".intercalate name) := Text.before?_eq_some.2 rfl
  have hslash := map_dotOfSlash fun c hc => (h c hc).2.2
  have hread : logical? (sep ++ "/".intercalate name ++ sourceExtension) =
      some (.ofDotted (String.ofList (sep.toList.map dotOfSlash ++ name.dotted.toList))) := by
    rw [logical?, hstem, Option.map_some, ← hslash, ← List.map_append, ← String.toList_append]
    rfl
  rw [hread]
  rcases hsep with rfl | rfl
  · simpa using hname
  · have hpieces : Text.pieces '.' (String.ofList ('.' :: name.dotted.toList)) =
        "" :: Text.pieces '.' name.dotted := by
      simp [Text.pieces, List.splitOn_cons_eq_if_modifyHead]
    have hdot : "/".toList.map dotOfSlash = ['.'] := rfl
    rw [hdot, List.singleton_append, Logical.ofDotted, hpieces, List.filter_cons_of_neg (by simp)]
    exact congrArg some hname

end Diagnostic

namespace Task

variable {t : Task} {m : Record}

/-- The name of a source as a file is a path in normal form. -/
theorem exists_steps_file (h : m.logical.Identifiers) :
    ∃ cs, AllSteps cs ∧ cs ≠ []
      ∧ "/".intercalate m.logical ++ sourceExtension = Path.text false cs := by
  rcases List.eq_nil_or_concat' m.logical with hnil | ⟨front, stem, hm⟩
  · have hstep : Path.IsStep sourceExtension := ⟨by decide, by decide, by decide⟩
    exact ⟨[sourceExtension], hstep.allSteps, by simp, by rw [hnil]; rfl⟩
  · exact ⟨front ++ [stem ++ sourceExtension], allSteps_file (hm ▸ h) (by decide) (by decide),
      by simp, by rw [hm, logical_append_extension]⟩

/-- The root is in normal form, perhaps with a slash after its last step. -/
def IsPlainRoot (root : String) : Prop :=
  Path.join [root] = root ∨ Path.steps root ≠ [] ∧ Path.join [root] ++ "/" = root

theorem exists_staged (hroot : IsPlainRoot t.root) (h : m.logical.Identifiers) :
    ∃ sep, (sep = "" ∨ sep = "/")
      ∧ t.staged m = t.root ++ (sep ++ "/".intercalate m.logical ++ sourceExtension) := by
  obtain ⟨cs, hcs, hne, hfile⟩ := exists_steps_file h
  have hstaged : t.staged m = Path.join [t.root] ++ (if Path.steps t.root = [] then "" else "/")
      ++ Path.text false cs := by
    rw [staged, hfile, join_append t.root hcs, Listing.text_append hne, Path.join_eq_text]
    simp [Path.text]
  obtain hroot | ⟨hsteps, hroot⟩ := hroot
  · refine ⟨if Path.steps t.root = [] then "" else "/", ?_, ?_⟩
    · split
      · exact .inl rfl
      · exact .inr rfl
    · rw [hstaged, hroot, ← hfile]
      simp only [String.append_assoc]
  · refine ⟨"", .inl rfl, ?_⟩
    rw [hstaged, if_neg hsteps, hroot, ← hfile, String.empty_append]

/-- The name of a staged source leads back to it: the name is made of identifiers below a root that
is spelled plainly, and among the sources of the project in `st'` it is the first of its logical
path and has what was read of it in `st`. -/
structure Retraces (t : Task) (m : Record) (st st' : Storage) : Prop where
  root : IsPlainRoot t.root
  identifiers : m.logical.Identifiers
  first : (t.input.sources st').find? (·.logical = m.logical) = some m
  kept : sourceOf st' m = sourceOf st m

variable {st st' : Storage} {source : String}

theorem Retraces.sourceText (h : t.Retraces m st st') (hs : sourceOf st m = .ok source.toUTF8) :
    Diagnostic.sourceText st' t.input ((Text.after? t.root (t.staged m)).getD (t.staged m)) =
      .ok source := by
  obtain ⟨sep, hsep, hstaged⟩ := exists_staged h.root h.identifiers
  have hafter : Text.after? t.root (t.staged m) =
      some (sep ++ "/".intercalate m.logical ++ sourceExtension) := Text.after?_eq_some.2 hstaged
  have hread := h.kept.trans hs
  unfold sourceOf at hread
  rcases hv : m.volume with _ | v
  · rw [hv] at hread
    cases hread
  · rw [hv] at hread
    have htext : st'.readText v m.physical = .ok source := by
      simp only [Storage.readText, hread, Except.map, Text.ofBytes_toUTF8]
    rw [hafter, Option.getD_some]
    simp [Diagnostic.sourceText, Diagnostic.logical?_file h.identifiers hsep, h.first, hv, htext]

theorem positionIn_eq_ofBytes {offset : Nat} (h : offset ≤ source.toUTF8.size) :
    Diagnostic.positionIn source offset = .ofBytes source.toUTF8.data.toList offset := by
  have hsize : source.utf8ByteSize = source.toUTF8.size := String.size_toByteArray.symm
  rw [Diagnostic.positionIn, hsize, Nat.min_eq_left h, Position.ofOffset_eq_ofBytes]

/-- The bytes that a compile sequence sends are those of its source. -/
theorem Compiles.put {talk : List Exchange} {out : Except Halt Unit} (h : t.Compiles st m talk out)
    {path : String} {content : ByteArray} (hput : .put path content ∈ commands talk) :
    sourceOf st m = .ok content := by
  have key : ∀ {source : ByteArray} {out : Except Halt (List Reply)},
      Performs (t.steps m source ++ t.fetchSteps m) talk out → source = content := by
    intro source out hp
    have hmem := (hp.commands_prefix isPlain_sequence).1.subset hput
    rw [filterMap_sequence, commandsOf] at hmem
    split at hmem <;> simp at hmem <;> exact hmem.2.symm
  cases h with
  | unread _ => simp at hput
  | halted hs hp => exact key hp ▸ hs
  | unkept e hs _ hp => exact key hp ▸ hs
  | done hs hp => exact key hp ▸ hs

theorem Retraces.ofFailure (h : t.Retraces m st st') (hs : sourceOf st m = .ok source.toUTF8)
    {f : CompilerFailure} {span : Span} (hspan : f.span = some span)
    (hfile : span.file = t.staged m) (hle : span.start ≤ span.stop)
    (hsize : span.stop ≤ source.toUTF8.size) :
    ∃ file, Diagnostic.ofFailure st' t.input t.root f = ⟨file, f.message,
      some (.ofBytes source.toUTF8.data.toList span.start),
      some (.ofBytes source.toUTF8.data.toList span.stop)⟩ := by
  refine ⟨(Text.after? t.root (t.staged m)).getD (t.staged m), ?_⟩
  simp only [Diagnostic.ofFailure, hspan, hfile, h.sourceText hs,
    positionIn_eq_ofBytes (hle.trans hsize), positionIn_eq_ofBytes hsize]

/-- Where the compiler fails at a place of the source that it was sent, and the name of the staged
file leads back to this source, the report has the place by line and column in the bytes that were
sent. -/
theorem compile_failure_place {ρ : Type} {tr : Transport ρ} {t t' : Task} {m : Record}
    {s s' : Site ρ} {talk : List Exchange} {f : CompilerFailure} {span : Span} {source : String}
    (h : t.compile tr.recorded m (s.note []) =
      (t', s'.note talk, .error (.failed (.failure (.compilerFailure f)))))
    (hput : .put (t.staged m) source.toUTF8 ∈ commands talk)
    (hspan : f.span = some span) (hfile : span.file = t.staged m)
    (hle : span.start ≤ span.stop) (hsize : span.stop ≤ source.toUTF8.size)
    (hr : t.Retraces m s.storage s'.storage) :
    t.compile tr m s = (t', s', .error (.failed (.failure (.compilerFailure f))))
      ∧ ∃ r d, t'.events = t.events ++ [.compiling m.physical, .report r, .failed m.physical]
        ∧ r.reply = some (.compilerFailure f) ∧ r.diagnostic = some d
        ∧ d.start = some (.ofBytes source.toUTF8.data.toList span.start)
        ∧ d.stop = some (.ofBytes source.toUTF8.data.toList span.stop) := by
  have hal := Alike.refl t
  obtain ⟨a, rfl, rfl, hran, hx, hrec⟩ := compile_recorded tr hal m s
  have hsteps := compile_snd tr hal a.record a.site
  rcases hc : t.compile tr a.record a.site with ⟨t₁, s₁, out⟩
  rw [hc] at hsteps hx hrec
  obtain ⟨rfl, hnote, rfl⟩ : t₁ = t' ∧ s₁.note a.talk = s'.note talk
      ∧ out = .error (.failed (.failure (.compilerFailure f))) := by
    have heq := (hrec []).symm.trans h
    simpa using heq
  obtain ⟨rfl, rfl⟩ := Site.note_injective hnote
  obtain ⟨file, hplace⟩ := hr.ofFailure (hran.compiles.put hput) hspan hfile hle hsize
  refine ⟨rfl, Report.ofError s₁.storage t.input t.root a.record.physical
    (.failure (.compilerFailure f)), _, ?_, rfl, congrArg some hplace, rfl, rfl⟩
  rw [hx.events]
  simp [Attempt.events, ← hsteps]

open Transport (faultless)

/-- A source whose second line the compiler refuses. -/
def refusedText : String := "(* \u00e9 *)\nLemma l.\n"

def refusedVolume : Volume := ⟨0, .memory 0⟩

def refusedModule : Record := ⟨some refusedVolume, ["A"], "/src/A.v", some "p"⟩

def refusedProject : Project where
  name := "p"
  volume := refusedVolume
  search := ⟨refusedVolume, [⟨refusedVolume, [], "/src", some "p"⟩], none, none⟩
  deps := []
  listed := none

def refusedTask (root : String) : Task := .new refusedProject root false ⟨1, .memory 1⟩ false

/-- The word at the start of the second line. -/
def refusal (file : String) : CompilerFailure := ⟨some ⟨file, 9, 14⟩, "oops", .null⟩

def refusedSite (file : String) : Site (List Reply) where
  remote := [.compilerFailure (refusal file)]
  storage := ⟨[.ofList [("/src/A.v", refusedText.toUTF8)], .empty], [], default, 2⟩
  stopped := false

def refusedRun (root file : String) :
    Task × Site (List Reply × List Exchange) × Except Halt Unit :=
  (refusedTask root).compile faultless.recorded refusedModule ((refusedSite file).note [])

theorem refusedRun_eq {root file : String}
    (h : (refusedRun root file).2.2 =
      .error (.failed (.failure (.compilerFailure (refusal file))))) :
    (refusedTask root).compile faultless.recorded refusedModule ((refusedSite file).note []) =
      ((refusedRun root file).1,
        (refusedRun root file).2.1.bare.note (refusedRun root file).2.1.notes,
        .error (.failed (.failure (.compilerFailure (refusal file))))) := by
  rw [← h]
  rfl

theorem compile_failure_place_refused :
    ∃ (t' : Task) (s' : Site (List Reply)) (talk : List Exchange),
      (refusedTask "/lib").compile faultless.recorded refusedModule
          ((refusedSite "/lib/A.v").note [])
        = (t', s'.note talk, .error (.failed (.failure (.compilerFailure (refusal "/lib/A.v")))))
      ∧ .put ((refusedTask "/lib").staged refusedModule) refusedText.toUTF8 ∈ commands talk
      ∧ (refusal "/lib/A.v").span = some ⟨"/lib/A.v", 9, 14⟩
      ∧ "/lib/A.v" = (refusedTask "/lib").staged refusedModule
      ∧ 9 ≤ 14 ∧ 14 ≤ refusedText.toUTF8.size
      ∧ (refusedTask "/lib").Retraces refusedModule (refusedSite "/lib/A.v").storage s'.storage
      ∧ (refusedTask "/lib").compile faultless refusedModule (refusedSite "/lib/A.v")
        = (t', s', .error (.failed (.failure (.compilerFailure (refusal "/lib/A.v")))))
      ∧ ∃ r d, t'.events = [.compiling "/src/A.v", .report r, .failed "/src/A.v"]
        ∧ r.reply = some (.compilerFailure (refusal "/lib/A.v")) ∧ r.diagnostic = some d
        ∧ d.start = some ⟨1, 0⟩ ∧ d.stop = some ⟨1, 5⟩ := by
  have hout : (refusedRun "/lib" "/lib/A.v").2.2 =
      .error (.failed (.failure (.compilerFailure (refusal "/lib/A.v")))) := by decide +kernel
  have hrun := refusedRun_eq hout
  have hput : .put ((refusedTask "/lib").staged refusedModule) refusedText.toUTF8 ∈
      commands (refusedRun "/lib" "/lib/A.v").2.1.notes := by decide +kernel
  have hstaged : "/lib/A.v" = (refusedTask "/lib").staged refusedModule := by decide +kernel
  have hsize : 14 ≤ refusedText.toUTF8.size := by decide +kernel
  have hr : (refusedTask "/lib").Retraces refusedModule (refusedSite "/lib/A.v").storage
      (refusedRun "/lib" "/lib/A.v").2.1.bare.storage :=
    ⟨.inl (by decide +kernel), by decide +kernel, by decide +kernel, by decide +kernel⟩
  obtain ⟨hplain, r, d, hevents, hreply, hd, hstart, hstop⟩ :=
    compile_failure_place hrun hput rfl hstaged (by decide) hsize hr
  have hplace : Position.ofBytes refusedText.toUTF8.data.toList 9 = ⟨1, 0⟩
      ∧ Position.ofBytes refusedText.toUTF8.data.toList 14 = ⟨1, 5⟩ := by decide +kernel
  refine ⟨_, _, _, hrun, hput, rfl, hstaged, by decide, hsize, hr, hplain, r, d, hevents, hreply,
    hd, ?_, ?_⟩
  · rw [hstart]
    exact congrArg some hplace.1
  · rw [hstop]
    exact congrArg some hplace.2

/-- Below the root `./lib` a source is staged as a file of `lib`, whose name does not start with the
root: the report of the same failure gives no place. -/
theorem compile_failure_unplaced :
    ∃ (t' : Task) (s' : Site (List Reply)) (talk : List Exchange),
      (refusedTask "./lib").compile faultless.recorded refusedModule
          ((refusedSite "lib/A.v").note [])
        = (t', s'.note talk, .error (.failed (.failure (.compilerFailure (refusal "lib/A.v")))))
      ∧ .put ((refusedTask "./lib").staged refusedModule) refusedText.toUTF8 ∈ commands talk
      ∧ (refusal "lib/A.v").span = some ⟨"lib/A.v", 9, 14⟩
      ∧ "lib/A.v" = (refusedTask "./lib").staged refusedModule
      ∧ 9 ≤ 14 ∧ 14 ≤ refusedText.toUTF8.size
      ∧ t'.events = [.compiling "/src/A.v", .report ⟨"/src/A.v",
          (Error.failure (.compilerFailure (refusal "lib/A.v"))).text,
          some (.compilerFailure (refusal "lib/A.v")), some ⟨"lib/A.v", "oops", none, none⟩⟩,
        .failed "/src/A.v"] := by
  have hout : (refusedRun "./lib" "lib/A.v").2.2 =
      .error (.failed (.failure (.compilerFailure (refusal "lib/A.v")))) := by decide +kernel
  have hrun := refusedRun_eq hout
  exact ⟨_, _, _, hrun, by decide +kernel, rfl, by decide +kernel, by decide, by decide +kernel,
    by decide +kernel⟩

end Task

end Bindery
