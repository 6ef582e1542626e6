import Bindery.Build.Task
import Bindery.Proofs.Transcript
import Mathlib.Data.List.Chain

/-!
# The trace of a run

A run comes to the modules of its plan in order and has a compile sequence for each source, its
attempts. `Compiles` says what passes in a compile sequence and how it ends, `Walks` how a run goes
through the modules; `compileAll_walks` says that every run goes like that, whatever the remote
does and whenever a stop is asked for. The facts about a run then follow by induction on its walk.
`run_eq_iff` says how a run can end, `run_recorded` what passes in it, and `run_trace` puts them
together.
-/

namespace Bindery

variable {ρ : Type}

namespace Task

/-! ## Compile sequences -/

/-- The source of a module. -/
def sourceOf (st : Storage) (m : Record) : Except Error ByteArray :=
  match m.volume with
  | none => .error (.notFound m.physical)
  | some v => st.read v m.physical

/-- The steps that fetch a compiled file. -/
def fetchSteps (t : Task) (m : Record) : List Step :=
  if t.shared then [] else [.send (.get (t.artifact m)), .await .got]

/-- What passes in a compile sequence, and how it ends. -/
inductive Compiles (t : Task) (st : Storage) (m : Record) :
    List Exchange → Except Halt Unit → Prop where
  | unread {e : Error} : sourceOf st m = .error e → Compiles t st m [] (.error (.failed e))
  | halted {source : ByteArray} {talk : List Exchange} {h : Halt} : sourceOf st m = .ok source →
      Performs (t.steps m source ++ t.fetchSteps m) talk (.error h) →
      Compiles t st m talk (.error h)
  /-- The compiled file cannot be kept. -/
  | unkept {source : ByteArray} {talk : List Exchange} {rs : List Reply} (e : Error) :
      sourceOf st m = .ok source → t.shared = false →
      Performs (t.steps m source ++ t.fetchSteps m) talk (.ok rs) →
      Compiles t st m talk (.error (.failed e))
  | done {source : ByteArray} {talk : List Exchange} {rs : List Reply} :
      sourceOf st m = .ok source →
      Performs (t.steps m source ++ t.fetchSteps m) talk (.ok rs) →
      Compiles t st m talk (.ok ())

/-- The commands of a compile sequence. -/
def commandsOf (t : Task) (m : Record) (source : ByteArray) : List Command :=
  .init m.dotted :: .put (t.staged m) source :: .load (t.staged m) :: .compile (t.artifact m) ::
    if t.shared then [] else [.get (t.artifact m)]

section Talk

variable {t : Task} {m : Record}

theorem isPlain_sequence {source : ByteArray} :
    ∀ st ∈ t.steps m source ++ t.fetchSteps m, st.IsPlain := by
  intro st h
  unfold steps fetchSteps at h
  rcases List.mem_append.1 h with h | h
  · simp only [List.mem_cons, List.not_mem_nil, or_false] at h
    rcases h with rfl | rfl | rfl | rfl | rfl | rfl
    all_goals first | exact Step.isPlain_send _ | exact Step.isPlain_await (by decide)
  · split at h
    · simp at h
    · simp only [List.mem_cons, List.not_mem_nil, or_false] at h
      rcases h with rfl | rfl
      · exact Step.isPlain_send _
      · exact Step.isPlain_await (by decide)

theorem filterMap_sequence (t : Task) (m : Record) (source : ByteArray) :
    (t.steps m source ++ t.fetchSteps m).filterMap (·.command?) = t.commandsOf m source := by
  unfold steps fetchSteps commandsOf
  split <;> rfl

/-- In a compile sequence a failure is the last that passes, and what is said is a first part of
its commands. -/
theorem Compiles.talk {st : Storage} {talk : List Exchange} {out : Except Halt Unit}
    (h : t.Compiles st m talk out) :
    LastOnly (·.isFailure) talk ∧ (out = .ok () → ∀ x ∈ talk, x.isFailure = false)
      ∧ (∀ x ∈ talk, x.isLook = false) ∧ (∃ source, commands talk <+: t.commandsOf m source)
      ∧ ∀ x rest, talk = x :: rest → x.command? = some (.init m.dotted) := by
  have key : ∀ {source : ByteArray} {out : Except Halt (List Reply)},
      Performs (t.steps m source ++ t.fetchSteps m) talk out →
      LastOnly (·.isFailure) talk ∧ ((∃ rs, out = .ok rs) → ∀ x ∈ talk, x.isFailure = false)
        ∧ (∀ x ∈ talk, x.isLook = false) ∧ (∃ source, commands talk <+: t.commandsOf m source)
        ∧ ∀ x rest, talk = x :: rest → x.command? = some (.init m.dotted) := by
    intro source out hp
    obtain ⟨hl, hok⟩ := hp.lastOnly isPlain_sequence
    obtain ⟨x, rest, rfl, hx⟩ := Performs.send_inv hp
    refine ⟨hl, hok, hp.isLook_eq_false, ⟨source, ?_⟩, ?_⟩
    · rw [← filterMap_sequence]
      exact (hp.commands_prefix isPlain_sequence).1
    · intro y _ he
      rw [← (List.cons.inj he).1]
      exact hx
  cases h with
  | unread _ => exact ⟨lastOnly_nil, by simp, by simp, ⟨.empty, by simp⟩, by simp⟩
  | halted _ hp =>
    obtain ⟨h1, -, h2⟩ := key hp
    exact ⟨h1, by simp, h2⟩
  | unkept e _ _ hp =>
    obtain ⟨h1, -, h2⟩ := key hp
    exact ⟨h1, by simp, h2⟩
  | done _ hp =>
    obtain ⟨h1, hok, h2⟩ := key hp
    exact ⟨h1, fun _ => hok ⟨_, rfl⟩, h2⟩

theorem Compiles.performs_of_ok {st : Storage} {talk : List Exchange} {out : Except Halt Unit}
    (h : t.Compiles st m talk out) (ho : out = .ok ()) :
    ∃ source rs, Performs (t.steps m source ++ t.fetchSteps m) talk (.ok rs) := by
  cases h with
  | unread _ => simp at ho
  | halted _ _ => simp at ho
  | unkept e _ _ _ => simp at ho
  | done _ hp => exact ⟨_, _, hp⟩

theorem of_mem_tail_commandsOf (t : Task) (m : Record) (source : ByteArray) :
    ∀ c ∈ (t.commandsOf m source).tail, c.isInit = false ∧ c.isLoadPackages = false := by
  intro c h
  unfold commandsOf at h
  split at h <;> simp only [List.tail_cons, List.mem_cons, List.not_mem_nil, or_false] at h
  · rcases h with rfl | rfl | rfl <;> exact ⟨rfl, rfl⟩
  · rcases h with rfl | rfl | rfl | rfl <;> exact ⟨rfl, rfl⟩

theorem not_load_of_mem (t : Task) (m : Record) (source : ByteArray) :
    ∀ c ∈ t.commandsOf m source, c.isLoadPackages = false :=
  List.forall_mem_cons.2 ⟨rfl, fun c h => (of_mem_tail_commandsOf t m source c h).2⟩

/-- Only the first exchange of a compile sequence sets a module. -/
theorem Compiles.init {st : Storage} {talk : List Exchange} {out : Except Halt Unit}
    (h : t.Compiles st m talk out) :
    ∀ x rest, talk = x :: rest → ∀ y ∈ rest, y.isInit = false := by
  rintro x rest rfl y hy
  obtain ⟨-, -, -, ⟨source, hc⟩, hx⟩ := h.talk
  have hx := hx x rest rfl
  rcases hyc : y.command? with _ | c
  · simp [Exchange.isInit, hyc]
  have hmem : c ∈ commands rest := mem_commands.2 ⟨y, hy, hyc⟩
  have hc' : commands (x :: rest) = .init m.dotted :: commands rest := by
    simp [commands, hx]
  rw [hc', commandsOf, List.cons_prefix_cons] at hc
  have := of_mem_tail_commandsOf t m source c
    (by rw [commandsOf, List.tail_cons]; exact hc.2.subset hmem)
  simpa [Exchange.isInit, hyc] using this.1

end Talk

section Sequence

variable (tr : Transport ρ)

theorem fetch_recorded (t : Task) (m : Record) (s : Site ρ) :
    ∃ talk out, Performs [.send (.get (t.artifact m)), .await .got] talk out
      ∧ ((∃ h, out = .error h ∧ (t.fetch tr m s).2 = .error h)
        ∨ ∃ rs, out = .ok rs
          ∧ ((t.fetch tr m s).2 = .ok () ∨ ∃ e, (t.fetch tr m s).2 = .error (.failed e)))
      ∧ ∀ l, t.fetch tr.recorded m (s.note l)
        = ((t.fetch tr m s).1.note (l ++ talk), (t.fetch tr m s).2) := by
  obtain ⟨talk, ht, hl⟩ := tr.perform_recorded [.send (.get (t.artifact m)), .await .got] s
  rcases hp : tr.perform [.send (.get (t.artifact m)), .await .got] s with ⟨s', h | rs⟩ <;>
    rw [hp] at ht hl
  · exact ⟨talk, _, ht, .inl ⟨h, rfl, by simp [fetch, hp]⟩, fun l => by simp [fetch, hp, hl]⟩
  refine ⟨talk, _, ht, .inr ⟨rs, rfl, ?_⟩, fun l => ?_⟩
  · simp only [fetch, hp]
    split
    · rename_i hw
      simp at hw
    · split
      · exact .inl rfl
      · exact .inr ⟨_, rfl⟩
    · exact .inl rfl
  · simp only [fetch, hp, hl]
    rcases rs with _ | ⟨r, rs⟩
    · rfl
    cases r <;> try rfl
    simp only [Site.storage_note]
    split <;> rfl

/-- What passes in a compile sequence does not hang on what passed before. -/
theorem compileSteps_recorded (t : Task) (m : Record) (s : Site ρ) :
    ∃ talk, t.Compiles s.storage m talk (t.compileSteps tr m s).2
      ∧ ∀ l, t.compileSteps tr.recorded m (s.note l)
        = ((t.compileSteps tr m s).1.note (l ++ talk), (t.compileSteps tr m s).2) := by
  unfold compileSteps
  rcases hv : m.volume with _ | v
  · exact ⟨[], .unread (by simp [sourceOf, hv]), fun l => by simp⟩
  have hs : sourceOf s.storage m = s.storage.read v m.physical := by simp [sourceOf, hv]
  rcases hr : s.storage.read v m.physical with e | source
  · refine ⟨[], ?_, fun l => ?_⟩
    · simp only [hr]
      exact .unread (hs.trans hr)
    · simp only [Site.storage_note, hr, List.append_nil]
  obtain ⟨talk, ht, hl⟩ := tr.perform_recorded (t.steps m source) s
  rcases hp : tr.perform (t.steps m source) s with ⟨s', h | rs⟩ <;> rw [hp] at ht hl
  · refine ⟨talk, ?_, fun l => ?_⟩
    · simp only [hr, hp]
      exact .halted (hs.trans hr) (ht.halt_append rfl _)
    · simp only [Site.storage_note, hr, hp, hl]
  by_cases hsh : t.shared = true
  · refine ⟨talk, ?_, fun l => ?_⟩
    · simp only [hr, hp, hsh, if_true]
      exact .done (hs.trans hr) (by simpa [fetchSteps, hsh] using ht)
    · simp only [Site.storage_note, hr, hp, hl, hsh, if_true]
  have hf : t.fetchSteps m = [.send (.get (t.artifact m)), .await .got] := by
    simp [fetchSteps, hsh]
  obtain ⟨got, out, hg, hout, hgl⟩ := t.fetch_recorded tr m s'
  have happ := ht.append rfl hg
  rw [← hf] at happ
  refine ⟨talk ++ got, ?_, fun l => ?_⟩
  · simp only [hr, hp, hsh]
    rcases hout with ⟨h, rfl, hres⟩ | ⟨rs', rfl, hres | ⟨e, hres⟩⟩
    · exact hres ▸ .halted (hs.trans hr) happ
    · exact hres ▸ .done (hs.trans hr) happ
    · exact hres ▸ .unkept e (hs.trans hr) (by simpa using hsh) happ
  · simp [hr, hp, hl, hsh, hgl]

end Sequence

/-! ## Attempts -/

/-- Tasks that differ only in what has come of a run. -/
structure Alike (t t' : Task) : Prop where
  input : t.input = t'.input
  resolve : t.resolve = t'.resolve
  root : t.root = t'.root
  legacy : t.legacy = t'.legacy
  volume : t.volume = t'.volume
  shared : t.shared = t'.shared

theorem Alike.refl (t : Task) : t.Alike t := ⟨rfl, rfl, rfl, rfl, rfl, rfl⟩

theorem Alike.trans {t t₁ t' : Task} (h : t'.Alike t₁) (h' : t₁.Alike t) : t'.Alike t :=
  ⟨h.input.trans h'.input, h.resolve.trans h'.resolve, h.root.trans h'.root,
    h.legacy.trans h'.legacy, h.volume.trans h'.volume, h.shared.trans h'.shared⟩

/-- A task stays the same to its compile sequences, whatever comes of it. -/
theorem Alike.progress {t₁ t : Task} (h : t₁.Alike t) (infiles outfiles : List Record)
    (events : List Event) (phase : Phase) (output : Option Project) :
    Task.Alike { t₁ with infiles, outfiles, events, phase, output } t :=
  ⟨h.input, h.resolve, h.root, h.legacy, h.volume, h.shared⟩

theorem Alike.compileSteps_eq {t t' : Task} (h : t.Alike t') (tr : Transport ρ) :
    t.compileSteps tr = t'.compileSteps tr := by
  funext m s
  simp only [compileSteps, fetch, steps, artifact, staged, h.root, h.volume, h.shared]

end Task

/-- A compile sequence of a run: of which source, where it starts, and what passes in it. -/
structure Attempt (ρ : Type) where
  record : Record
  site : Site ρ
  talk : List Exchange

namespace Attempt

variable (tr : Transport ρ) (t : Task)

def outcome (a : Attempt ρ) : Except Halt Unit := (t.compileSteps tr a.record a.site).2

/-- What is told of the attempt. -/
def events (a : Attempt ρ) : List Event :=
  .compiling a.record.physical ::
    match t.compileSteps tr a.record a.site with
    | (_, .ok ()) => [.compiled a.record.physical]
    | (s, .error (.failed e)) =>
      [.report (.ofError s.storage t.input t.root a.record.physical e),
        .failed a.record.physical]
    | (_, .error .stalled) => []

/-- The record of the compiled file. -/
def outfile (a : Attempt ρ) : Record :=
  ⟨some t.volume, a.record.logical, t.artifact a.record, none⟩

/-- The talk is what passes when the sequence is taken, whatever passed before. -/
structure Ran (a : Attempt ρ) : Prop where
  compiles : t.Compiles a.site.storage a.record a.talk (a.outcome tr t)
  recorded : ∀ l, t.compileSteps tr.recorded a.record (a.site.note l)
    = ((t.compileSteps tr a.record a.site).1.note (l ++ a.talk), a.outcome tr t)

end Attempt

namespace Task

variable (tr : Transport ρ)

/-- What some attempts add to a task. -/
structure Extends (t t₁ t' : Task) (as : List (Attempt ρ)) : Prop where
  alike : t'.Alike t
  infiles : t'.infiles = t₁.infiles ++ as.map (·.record)
  events : t'.events = t₁.events ++ as.flatMap (·.events tr t)
  outfiles : t'.outfiles = t₁.outfiles ++
    (as.filter fun a => .compiled a.record.physical ∈ a.events tr t).map (·.outfile t)

theorem Extends.refl {t t₁ : Task} (h : t₁.Alike t) : Extends tr t t₁ t₁ [] :=
  ⟨h, by simp, by simp, by simp⟩

theorem Extends.trans {tr : Transport ρ} {t t₁ t₂ t₃ : Task} {as bs : List (Attempt ρ)}
    (h : Extends tr t t₁ t₂ as) (h' : Extends tr t t₂ t₃ bs) : Extends tr t t₁ t₃ (as ++ bs) :=
  ⟨h'.alike, by simp [h'.infiles, h.infiles], by simp [h'.events, h.events],
    by simp [h'.outfiles, h.outfiles]⟩

theorem compile_alike (t : Task) (m : Record) (s : Site ρ) : (t.compile tr m s).1.Alike t := by
  unfold compile
  simp only
  split <;> exact (Alike.refl t).progress _ _ _ _ _

theorem compile_snd {t t₁ : Task} (h : t₁.Alike t) (m : Record) (s : Site ρ) :
    (t₁.compile tr m s).2 = t.compileSteps tr m s := by
  have hst : (emit { t₁ with infiles := t₁.infiles ++ [m] } (.compiling m.physical)).Alike t :=
    h.progress _ _ _ _ _
  simp only [compile, hst.compileSteps_eq tr]
  rcases t.compileSteps tr m s with ⟨s', (e | _) | _⟩ <;> rfl

theorem compile_recorded {t t₁ : Task} (h : t₁.Alike t) (m : Record) (s : Site ρ) :
    ∃ a : Attempt ρ, a.record = m ∧ a.site = s ∧ a.Ran tr t
      ∧ Extends tr t t₁ (t₁.compile tr m s).1 [a]
      ∧ ∀ l, t₁.compile tr.recorded m (s.note l) = ((t₁.compile tr m s).1,
        (t₁.compile tr m s).2.1.note (l ++ a.talk), (t₁.compile tr m s).2.2) := by
  obtain ⟨talk, hc, hl⟩ := t.compileSteps_recorded tr m s
  refine ⟨⟨m, s, talk⟩, rfl, rfl, ⟨hc, hl⟩, ?_⟩
  have hal := (compile_alike tr t₁ m s).trans h
  have hst : (emit { t₁ with infiles := t₁.infiles ++ [m] } (.compiling m.physical)).Alike t :=
    h.progress _ _ _ _ _
  have h1 := hst.compileSteps_eq tr
  have h2 := hst.compileSteps_eq tr.recorded
  have ha : ∀ x, (emit { t₁ with infiles := t₁.infiles ++ [m] } x).artifact m = t.artifact m := by
    intro x
    simp only [emit, artifact, staged, h.root]
  rcases ho : t.compileSteps tr m s with ⟨s', (e | _) | _⟩ <;> rw [ho] at hl
  · refine ⟨⟨hal, ?_, ?_, ?_⟩, fun l => ?_⟩ <;>
      simp only [compile, h1, h2, ho, hl, Attempt.events] <;> simp [emit, h.input, h.root, ho]
  · refine ⟨⟨hal, ?_, ?_, ?_⟩, fun l => ?_⟩ <;>
      simp only [compile, h1, h2, ho, hl, Attempt.events] <;> simp [emit, ho]
  · refine ⟨⟨hal, ?_, ?_, ?_⟩, fun l => ?_⟩ <;>
      simp only [compile, h1, h2, ho, hl, ha, Attempt.events, Attempt.outfile] <;>
      simp [emit, h.volume, ho]

/-! ## Walks through a plan -/

/-- The attempts that a run makes between two sites. Before each it looks at the flag. -/
inductive Course (t : Task) : Site ρ → List (Attempt ρ) → Site ρ → Prop where
  | refl (s : Site ρ) : Course t s [] s
  | looked {s s' : Site ρ} {as : List (Attempt ρ)} : Course t (tr.meanwhile s) as s' →
      Course t s as s'
  | attempted {a : Attempt ρ} {s' : Site ρ} {as : List (Attempt ρ)} :
      Course t (t.compileSteps tr a.record a.site).1 as s' → Course t a.site (a :: as) s'

/-- How a run goes through modules: its attempts, what passes, and how it ends. -/
inductive Walks (t : Task) :
    List Record → List (Attempt ρ) → List Exchange → Except Halt Unit → Prop where
  | finished : Walks t [] [] [] (.ok ())
  | stopped {m : Record} {r : List Record} : Walks t (m :: r) [] [.looked true] (.ok ())
  | passed {m : Record} {r : List Record} {as : List (Attempt ρ)} {notes : List Exchange}
      {out : Except Halt Unit} : m.isSource = false → Walks t r as notes out →
      Walks t (m :: r) as (.looked false :: notes) out
  | compiled {a : Attempt ρ} {r : List Record} {as : List (Attempt ρ)} {notes : List Exchange}
      {out : Except Halt Unit} : a.record.isSource = true → a.Ran tr t →
      a.outcome tr t = .ok () → Walks t r as notes out →
      Walks t (a.record :: r) (a :: as) (.looked false :: (a.talk ++ notes)) out
  | halted {a : Attempt ρ} {r : List Record} {h : Halt} : a.record.isSource = true →
      a.Ran tr t → a.outcome tr t = .error h →
      Walks t (a.record :: r) [a] (.looked false :: a.talk) (.error h)

theorem compileAll_walks {t : Task} : ∀ (order : List Record) {t₁ : Task} (s : Site ρ),
    t₁.Alike t → ∃ as notes, Walks tr t order as notes (t₁.compileAll tr order s).2.2
      ∧ Course tr t s as (t₁.compileAll tr order s).2.1
      ∧ Extends tr t t₁ (t₁.compileAll tr order s).1 as
      ∧ ∀ l, t₁.compileAll tr.recorded order (s.note l) = ((t₁.compileAll tr order s).1,
        (t₁.compileAll tr order s).2.1.note (l ++ notes), (t₁.compileAll tr order s).2.2)
  | [], t₁, s, h => ⟨[], [], .finished, .refl s, .refl tr h, fun l => by simp [compileAll]⟩
  | m :: r, t₁, s, h => by
    generalize hs' : tr.meanwhile s = s'
    have hlook := tr.meanwhile_recorded s
    rw [hs'] at hlook
    by_cases hstop : s'.stopped = true
    · have hall : t₁.compileAll tr (m :: r) s = ({ t₁ with phase := .stopped }, s', .ok ()) := by
        simp only [compileAll, hs', hstop, if_true]
      rw [hall]
      refine ⟨[], [.looked true], .stopped, .looked ?_,
        ⟨h.progress _ _ _ _ _, by simp, by simp, by simp⟩, fun l => ?_⟩
      · rw [hs']
        exact .refl s'
      · simp only [compileAll, hlook, Site.stopped_note, hstop, if_true]
    simp only [Bool.not_eq_true] at hstop
    by_cases hm : m.isSource = true
    · obtain ⟨a, rfl, rfl, hr, hx, hl⟩ := compile_recorded tr h m s'
      have hsteps := compile_snd tr h a.record a.site
      rcases hc : t₁.compile tr a.record a.site with ⟨t₂, s₂, halt | _⟩ <;>
        rw [hc] at hsteps hx hl
      · have hall : t₁.compileAll tr (a.record :: r) s = (t₂, s₂, .error halt) := by
          simp only [compileAll, hs', hstop, hm, hc, Bool.false_eq_true, if_false, if_true]
        rw [hall]
        refine ⟨[a], .looked false :: a.talk, .halted hm hr (congrArg Prod.snd hsteps.symm),
          .looked (hs' ▸ .attempted ?_), hx, fun l => ?_⟩
        · rw [← hsteps]
          exact .refl s₂
        · simp [compileAll, hlook, hstop, hm, hl]
      · have hall : t₁.compileAll tr (a.record :: r) s = t₂.compileAll tr r s₂ := by
          simp only [compileAll, hs', hstop, hm, hc, Bool.false_eq_true, if_false, if_true]
        rw [hall]
        obtain ⟨as, notes, hw, hcourse, hx', hl'⟩ := compileAll_walks r s₂ hx.alike
        refine ⟨a :: as, .looked false :: (a.talk ++ notes),
          .compiled hm hr (congrArg Prod.snd hsteps.symm) hw, .looked (hs' ▸ .attempted ?_),
          hx.trans hx', fun l => ?_⟩
        · rw [← hsteps]
          exact hcourse
        · simp [compileAll, hlook, hstop, hm, hl, hl']
    · simp only [Bool.not_eq_true] at hm
      have hall : t₁.compileAll tr (m :: r) s = t₁.compileAll tr r s' := by
        simp only [compileAll, hs', hstop, hm, Bool.false_eq_true, if_false]
      rw [hall]
      obtain ⟨as, notes, hw, hcourse, hx, hl⟩ := compileAll_walks r s' h
      refine ⟨as, .looked false :: notes, .passed hm hw, .looked (hs' ▸ hcourse), hx, fun l => ?_⟩
      simp [compileAll, hlook, hstop, hm, hl]

section Walk

variable {tr} {t : Task} {order : List Record} {as : List (Attempt ρ)} {notes : List Exchange}
  {out : Except Halt Unit}

theorem Walks.ran (h : Walks tr t order as notes out) : ∀ a ∈ as, a.Ran tr t := by
  induction h with
  | finished => simp
  | stopped => simp
  | passed _ _ ih => exact ih
  | compiled _ hr _ _ ih => exact List.forall_mem_cons.2 ⟨hr, ih⟩
  | halted _ hr _ => exact List.forall_mem_cons.2 ⟨hr, by simp⟩

theorem Walks.records_prefix (h : Walks tr t order as notes out) :
    as.map (·.record) <+: order.filter (·.isSource) := by
  induction h with
  | finished => simp
  | stopped => simp
  | passed hm _ ih => simpa [hm] using ih
  | compiled hm _ _ _ ih => simpa [hm] using ih
  | halted hm _ _ => simp [hm]

theorem Walks.outcome_of_mem_dropLast (h : Walks tr t order as notes out) :
    ∀ a ∈ as.dropLast, a.outcome tr t = .ok () := by
  induction h with
  | finished => simp
  | stopped => simp
  | passed _ _ ih => exact ih
  | @compiled a r as _ _ _ _ ho _ ih =>
    rcases as with _ | ⟨b, as⟩
    · simp
    · simpa [ho] using ih
  | halted _ _ _ => simp

/-- A walk halts as its attempts do. -/
theorem Walks.halts (h : Walks tr t order as notes out) :
    ∀ a ∈ as, ∀ halt, a.outcome tr t = .error halt → out = .error halt := by
  induction h with
  | finished => simp
  | stopped => simp
  | passed _ _ ih => exact ih
  | compiled _ _ ho _ ih => exact List.forall_mem_cons.2 ⟨by simp [ho], ih⟩
  | halted _ _ ho => simp [ho]

theorem Walks.talks (h : Walks tr t order as notes out) :
    notes.filter (!·.isLook) = as.flatMap (·.talk) := by
  have hn : ∀ {a : Attempt ρ}, a.Ran tr t → a.talk.filter (!·.isLook) = a.talk := by
    intro a hr
    rw [List.filter_eq_self]
    simpa using hr.compiles.talk.2.2.1
  induction h with
  | finished => rfl
  | stopped => rfl
  | passed _ _ ih => exact ih
  | compiled _ hr _ _ ih => simp [hn hr, ih]
  | halted _ hr _ => simp [hn hr]

theorem Walks.failure_last (h : Walks tr t order as notes out) :
    LastOnly (·.isFailure) notes := by
  induction h with
  | finished => exact lastOnly_nil
  | stopped => exact lastOnly_singleton _
  | passed _ _ ih => exact lastOnly_cons rfl ih
  | compiled _ hr ho _ ih =>
    exact lastOnly_cons rfl (lastOnly_append (hr.compiles.talk.2.1 ho) ih)
  | halted _ hr _ => exact lastOnly_cons rfl hr.compiles.talk.1

theorem Walks.stop_last (h : Walks tr t order as notes out) : LastOnly (·.isStop) notes := by
  have hn : ∀ {a : Attempt ρ}, a.Ran tr t → ∀ x ∈ a.talk, x.isStop = false :=
    fun hr x hx => Exchange.isStop_of_isLook (hr.compiles.talk.2.2.1 x hx)
  induction h with
  | finished => exact lastOnly_nil
  | stopped => exact lastOnly_singleton _
  | passed _ _ ih => exact lastOnly_cons rfl ih
  | compiled _ hr _ _ ih => exact lastOnly_cons rfl (lastOnly_append (hn hr) ih)
  | halted _ hr _ => exact lastOnly_cons rfl (lastOnly_of_none (hn hr))

/-- What sets a module comes right after a look that sees no stop. -/
def AfterLook (x y : Exchange) : Prop := y.isInit = true → x = .looked false

theorem isChain_append_of_not_init {xs ys : List Exchange} (hx : ∀ x ∈ xs, x.isInit = false)
    (hy : ∀ z, (z :: ys).IsChain AfterLook) : ∀ z, (z :: (xs ++ ys)).IsChain AfterLook := by
  induction xs with
  | nil => exact hy
  | cons x xs ih =>
    intro z
    rw [List.forall_mem_cons] at hx
    rw [List.cons_append, List.isChain_cons_cons]
    exact ⟨by simp [AfterLook, hx.1], ih hx.2 x⟩

theorem isChain_talk {a : Attempt ρ} (hr : a.Ran tr t) (ys : List Exchange)
    (hy : ∀ z, (z :: ys).IsChain AfterLook) (z : Exchange) :
    (z :: .looked false :: (a.talk ++ ys)).IsChain AfterLook := by
  rw [List.isChain_cons_cons]
  refine ⟨by simp [AfterLook], ?_⟩
  rcases ht : a.talk with _ | ⟨x, rest⟩
  · exact hy _
  · rw [List.cons_append, List.isChain_cons_cons]
    exact ⟨fun _ => rfl, isChain_append_of_not_init (hr.compiles.init x rest ht) hy x⟩

theorem Walks.isChain (h : Walks tr t order as notes out) :
    ∀ z, (z :: notes).IsChain AfterLook := by
  induction h with
  | finished => simp
  | stopped => simp [AfterLook]
  | passed _ _ ih =>
    intro z
    rw [List.isChain_cons_cons]
    exact ⟨by simp [AfterLook], ih _⟩
  | compiled _ hr _ _ ih => exact isChain_talk hr _ ih
  | halted _ hr _ =>
    have := isChain_talk hr [] (by simp)
    simpa using this

end Walk

/-! ## Runs -/

theorem loadPackages_recorded (packages : List String) (s : Site ρ) :
    ∃ talk, (packages = [] ∧ talk = [] ∨ packages ≠ []
        ∧ Performs [.send (.loadPackages (packages.map ("+" ++ ·))), .await .packagesLoaded] talk
          (loadPackages tr packages s).2)
      ∧ ∀ l, loadPackages tr.recorded packages (s.note l)
        = ((loadPackages tr packages s).1.note (l ++ talk), (loadPackages tr packages s).2) := by
  unfold loadPackages
  split_ifs with h
  · exact ⟨[], .inl ⟨h, rfl⟩, fun l => by simp⟩
  · obtain ⟨talk, hp, hl⟩ := tr.perform_recorded
      [.send (.loadPackages (packages.map ("+" ++ ·))), .await .packagesLoaded] s
    exact ⟨talk, .inr ⟨h, hp⟩, hl⟩

/-- What passes while packages are loaded. -/
inductive Loads (packages : List String) : List Exchange → Prop where
  | needless : packages = [] → Loads packages []
  | loaded {talk : List Exchange} {rs : List Reply} : packages ≠ [] →
      Performs [.send (.loadPackages (packages.map ("+" ++ ·))), .await .packagesLoaded] talk
        (.ok rs) → Loads packages talk

/-- How a run that is not stopped at once plans, loads packages and compiles: what passes while
packages are loaded, the attempts, all that passes, and how it ends. -/
inductive Builds (t : Task) (planned : Except Error Plan) :
    List Exchange → List (Attempt ρ) → List Exchange → Except Halt Unit → Prop where
  | unplanned {e : Error} : planned = .error e → Builds t planned [] [] [] (.error (.failed e))
  | unloaded {plan : Plan} {talk : List Exchange} {h : Halt} : planned = .ok plan →
      plan.external.toList ≠ [] →
      Performs [.send (.loadPackages (plan.external.toList.map ("+" ++ ·))),
        .await .packagesLoaded] talk (.error h) →
      Builds t planned talk [] talk (.error h)
  | walked {plan : Plan} {talk notes : List Exchange} {as : List (Attempt ρ)}
      {out : Except Halt Unit} : planned = .ok plan → Loads plan.external.toList talk →
      Walks tr t plan.order as notes out → Builds t planned talk as (talk ++ notes) out

theorem build_walks {t t₁ : Task} (h : t₁.Alike t) (s : Site ρ) :
    ∃ loading as notes, Builds tr t (t.input.plan t.resolve s.storage) loading as notes
        (t₁.build tr s).2.2
      ∧ (∀ plan, t.input.plan t.resolve s.storage = .ok plan →
        Course tr t (loadPackages tr plan.external.toList s).1 as (t₁.build tr s).2.1)
      ∧ Extends tr t t₁ (t₁.build tr s).1 as
      ∧ ∀ l, t₁.build tr.recorded (s.note l) = ((t₁.build tr s).1,
        (t₁.build tr s).2.1.note (l ++ notes), (t₁.build tr s).2.2) := by
  have hp : t₁.input.plan t₁.resolve s.storage = t.input.plan t.resolve s.storage := by
    rw [h.input, h.resolve]
  rcases hpl : t.input.plan t.resolve s.storage with e | plan
  · have hb : t₁.build tr s = (t₁, s, .error (.failed e)) := by simp only [build, hp, hpl]
    rw [hb]
    exact ⟨[], [], [], .unplanned rfl, by simp, .refl tr h, fun l => by simp [build, hp, hpl]⟩
  obtain ⟨talk, hc, hl⟩ := loadPackages_recorded tr plan.external.toList s
  rcases ho : loadPackages tr plan.external.toList s with ⟨s', halt | rs⟩ <;> rw [ho] at hc hl
  · have hb : t₁.build tr s = (t₁, s', .error halt) := by simp only [build, hp, hpl, ho]
    rw [hb]
    refine ⟨talk, [], talk, ?_, ?_, .refl tr h, fun l => by simp [build, hp, hpl, hl]⟩
    · rcases hc with ⟨hn, -⟩ | ⟨hn, hc⟩
      · simp [loadPackages, hn] at ho
      · exact .unloaded rfl hn hc
    · rintro _ ⟨⟩
      rw [ho]
      exact .refl s'
  · have hb : t₁.build tr s = t₁.compileAll tr plan.order s' := by
      simp only [build, hp, hpl, ho]
    rw [hb]
    obtain ⟨as, notes, hw, hcourse, hx, hl'⟩ := compileAll_walks tr plan.order s' h
    refine ⟨talk, as, talk ++ notes, .walked rfl ?_ hw, ?_, hx, fun l => ?_⟩
    · rcases hc with ⟨hn, rfl⟩ | ⟨hn, hc⟩
      · exact .needless hn
      · exact .loaded hn hc
    · rintro _ ⟨⟩
      rw [ho]
      exact hcourse
    · simp [build, hp, hpl, hl, hl']

section Build

variable {tr} {t : Task} {planned : Except Error Plan} {loading notes : List Exchange}
  {as : List (Attempt ρ)} {out : Except Halt Unit}

theorem loading_talk {names : List String} {talk : List Exchange} {out : Except Halt (List Reply)}
    (h : Performs [.send (.loadPackages names), .await .packagesLoaded] talk out) :
    LastOnly (·.isFailure) talk ∧ ((∃ rs, out = .ok rs) → ∀ x ∈ talk, x.isFailure = false)
      ∧ (∀ x ∈ talk, x.isLook = false) ∧ commands talk <+: [.loadPackages names] := by
  have hp : ∀ st ∈ [Step.send (.loadPackages names), .await .packagesLoaded], st.IsPlain := by
    intro st hst
    simp only [List.mem_cons, List.not_mem_nil, or_false] at hst
    rcases hst with rfl | rfl
    · exact Step.isPlain_send _
    · exact Step.isPlain_await (by decide)
  exact ⟨(h.lastOnly hp).1, (h.lastOnly hp).2, h.isLook_eq_false, (h.commands_prefix hp).1⟩

/-- While packages are loaded nothing else is said, and they are loaded only if there are some. -/
theorem Builds.opening (h : Builds tr t planned loading as notes out) :
    (∀ x ∈ loading, x.isLook = false) ∧ (∀ c ∈ commands loading, c.isInit = false)
      ∧ (loading = [] ∨ ∃ plan, planned = .ok plan ∧ plan.external.toList ≠ []
        ∧ commands loading <+: [.loadPackages (plan.external.toList.map ("+" ++ ·))]) := by
  have hi : ∀ {names : List String} {talk : List Exchange},
      commands talk <+: [.loadPackages names] → ∀ c ∈ commands talk, c.isInit = false := by
    intro names talk hc c hm
    have := hc.subset hm
    simp only [List.mem_singleton] at this
    rw [this]
    rfl
  cases h with
  | unplanned _ => exact ⟨by simp, by simp, .inl rfl⟩
  | unloaded hp hn hl =>
    obtain ⟨-, -, h3, h4⟩ := loading_talk hl
    exact ⟨h3, hi h4, .inr ⟨_, hp, hn, h4⟩⟩
  | walked hp hl _ =>
    cases hl with
    | needless _ => exact ⟨by simp, by simp, .inl rfl⟩
    | loaded hn hl =>
      obtain ⟨-, -, h3, h4⟩ := loading_talk hl
      exact ⟨h3, hi h4, .inr ⟨_, hp, hn, h4⟩⟩

theorem Loads.not_failure {packages : List String} {talk : List Exchange}
    (h : Loads packages talk) : ∀ x ∈ talk, x.isFailure = false := by
  cases h with
  | needless _ => simp
  | loaded _ hl => exact (loading_talk hl).2.1 ⟨_, rfl⟩

theorem Builds.failure_last (h : Builds tr t planned loading as notes out) :
    LastOnly (·.isFailure) notes := by
  cases h with
  | unplanned _ => exact lastOnly_nil
  | unloaded _ _ hl => exact (loading_talk hl).1
  | walked _ hl hw => exact lastOnly_append hl.not_failure hw.failure_last

theorem Builds.stop_last (h : Builds tr t planned loading as notes out) :
    LastOnly (·.isStop) notes := by
  have hs : ∀ x ∈ loading, x.isStop = false :=
    fun x hx => Exchange.isStop_of_isLook (h.opening.1 x hx)
  cases h with
  | unplanned _ => exact lastOnly_nil
  | unloaded _ _ hl => exact lastOnly_of_none hs
  | walked _ hl hw => exact lastOnly_append hs hw.stop_last

theorem Builds.not_init_loading (h : Builds tr t planned loading as notes out) :
    ∀ x ∈ loading, x.isInit = false := by
  intro x hx
  rcases hc : x.command? with _ | c
  · simp [Exchange.isInit, hc]
  · simpa [Exchange.isInit, hc] using h.opening.2.1 c (mem_commands.2 ⟨x, hx, hc⟩)

theorem Builds.isChain (h : Builds tr t planned loading as notes out) :
    ∀ z, (z :: notes).IsChain AfterLook := by
  have hi := h.not_init_loading
  cases h with
  | unplanned _ => simp
  | unloaded _ _ _ =>
    have := isChain_append_of_not_init hi fun z => List.isChain_singleton z
    simpa using this
  | walked _ hl hw => exact isChain_append_of_not_init hi hw.isChain

theorem Builds.talks (h : Builds tr t planned loading as notes out) :
    notes.filter (!·.isLook) = loading ++ as.flatMap (·.talk) := by
  have hn : loading.filter (!·.isLook) = loading := by
    rw [List.filter_eq_self]
    simpa using h.opening.1
  cases h with
  | unplanned _ => rfl
  | unloaded _ _ _ => simp [hn]
  | walked _ _ hw => rw [List.filter_append, hn, hw.talks]

theorem Builds.walk (h : Builds tr t planned loading as notes out) :
    as = [] ∨ ∃ plan walked, planned = .ok plan ∧ Walks tr t plan.order as walked out := by
  cases h with
  | unplanned _ => exact .inl rfl
  | unloaded _ _ _ => exact .inl rfl
  | walked hp _ hw => exact .inr ⟨_, _, hp, hw⟩

end Build

theorem finish_eq (t : Task) (name : Option String) (s : Site ρ) :
    t.finish name s = ({ t with output := (t.outputProject s.storage name).toOption.or t.output },
      s, (t.outputProject s.storage name).mapError .failed) := by
  unfold finish deliver
  rcases t.outputProject s.storage name with e | p <;> rfl

/-- How a run comes to its end from its first look at the flag, which leaves it at `s`: it is
stopped at once, or ends as its build does. -/
inductive Runs (t : Task) (name : Option String) (s : Site ρ) :
    Task × Site ρ × Except Halt Project → Prop where
  | stopped {r : Task × Site ρ × Except Halt Project} : s.stopped = true →
      finish { t with phase := .stopped } name s = r → Runs t name s r
  | failed {t₁ : Task} {s₁ : Site ρ} {e : Error} : s.stopped = false →
      build tr { t with phase := .running } s = (t₁, s₁, .error (.failed e)) →
      Runs t name s ({ t₁ with phase := .failed }, s₁, .error (.failed e))
  | stalled {t₁ : Task} {s₁ : Site ρ} : s.stopped = false →
      build tr { t with phase := .running } s = (t₁, s₁, .error .stalled) →
      Runs t name s (t₁, s₁, .error .stalled)
  | built {t₁ : Task} {s₁ : Site ρ} {r : Task × Site ρ × Except Halt Project} :
      s.stopped = false → build tr { t with phase := .running } s = (t₁, s₁, .ok ()) →
      finish { t₁ with phase := if t₁.phase = .running then .completed else t₁.phase } name s₁ = r →
      Runs t name s r

theorem run_eq_iff {tr : Transport ρ} {t : Task} {name : Option String} {s : Site ρ}
    {r : Task × Site ρ × Except Halt Project} :
    t.run tr name s = r ↔ Runs tr t name (tr.meanwhile s) r := by
  constructor
  · rintro rfl
    by_cases hstop : (tr.meanwhile s).stopped = true
    · refine .stopped hstop ?_
      simp only [run, hstop, if_true]
    simp only [Bool.not_eq_true] at hstop
    rcases hb : build tr { t with phase := .running } (tr.meanwhile s) with ⟨t₁, s₁, (e | _) | _⟩ <;>
      simp only [run, hstop, hb, Bool.false_eq_true, if_false]
    · exact .failed hstop hb
    · exact .stalled hstop hb
    · exact .built hstop hb rfl
  · intro h
    cases h with
    | stopped hstop hr => simpa only [run, hstop, if_true] using hr
    | failed hstop hb => simp only [run, hstop, hb, Bool.false_eq_true, if_false]
    | stalled hstop hb => simp only [run, hstop, hb, Bool.false_eq_true, if_false]
    | built hstop hb hr => simpa only [run, hstop, hb, Bool.false_eq_true, if_false] using hr

/-- What a run adds to a task is what its build adds. -/
theorem Extends.ended {tr : Transport ρ} {t t₁ : Task} {as : List (Attempt ρ)}
    (h : Extends tr t { t with phase := .running } t₁ as) (phase : Phase)
    (output : Option Project) : Extends tr t t { t₁ with phase, output } as :=
  ⟨h.alike.progress _ _ _ _ _, h.infiles, h.events, h.outfiles⟩

/-- How a run goes on from its first look at the flag, and that its transcript is that of the same
run without one. -/
theorem run_recorded (t : Task) (name : Option String) (s : Site ρ) :
    ∃ t' s' result notes as, t.run tr name s = (t', s', result)
      ∧ t.run tr.recorded name (s.note []) = (t', s'.note notes, result)
      ∧ Extends tr t t t' as
      ∧ (notes = [.looked true] ∧ as = [] ∨ ∃ loading walked out, notes = .looked false :: walked
        ∧ Builds tr t (t.input.plan t.resolve (tr.meanwhile s).storage) loading as walked out
        ∧ (∀ halt, out = .error halt → result = .error halt)
        ∧ ∀ plan, t.input.plan t.resolve (tr.meanwhile s).storage = .ok plan →
          Course tr t (loadPackages tr plan.external.toList (tr.meanwhile s)).1 as s') := by
  have hal : Task.Alike { t with phase := .running } t := (Alike.refl t).progress _ _ _ _ _
  obtain ⟨loading, as, walked, hbuilds, hcourse, hx, hl⟩ := build_walks tr hal (tr.meanwhile s)
  rcases hrun : t.run tr name s with ⟨t', s', result⟩
  have hruns := run_eq_iff.1 hrun
  have hrec : ∀ notes, Runs tr.recorded t name
      ((tr.meanwhile s).note [.looked (tr.meanwhile s).stopped]) (t', s'.note notes, result) →
      t.run tr.recorded name (s.note []) = (t', s'.note notes, result) :=
    fun _ h => run_eq_iff.2 h
  cases hruns with
  | stopped hstop hr =>
    rw [hstop] at hrec
    rw [finish_eq] at hr
    cases hr
    exact ⟨_, _, _, [.looked true], [], rfl, hrec _ (.stopped hstop (finish_eq _ _ _)),
      (Extends.refl tr hal).ended .stopped _, .inl ⟨rfl, rfl⟩⟩
  | failed hstop hb =>
    rw [hstop] at hrec
    rw [hb] at hbuilds hcourse hx hl
    exact ⟨_, _, _, .looked false :: walked, as, rfl, hrec _ (.failed hstop (hl _)),
      hx.ended .failed _, .inr ⟨loading, walked, _, rfl, hbuilds, by simp, hcourse⟩⟩
  | stalled hstop hb =>
    rw [hstop] at hrec
    rw [hb] at hbuilds hcourse hx hl
    exact ⟨_, _, _, .looked false :: walked, as, rfl, hrec _ (.stalled hstop (hl _)),
      hx.ended _ _, .inr ⟨loading, walked, _, rfl, hbuilds, by simp, hcourse⟩⟩
  | built hstop hb hr =>
    rw [hstop] at hrec
    rw [hb] at hbuilds hcourse hx hl
    rw [finish_eq] at hr
    cases hr
    exact ⟨_, _, _, .looked false :: walked, as, rfl,
      hrec _ (.built hstop (hl _) (finish_eq _ _ _)), hx.ended _ _,
      .inr ⟨loading, walked, _, rfl, hbuilds, by simp, hcourse⟩⟩

/-- What a run from `t` does: `planned` is its plan, `loading` what passes while packages are
loaded, and `as` are its attempts. -/
structure Trace (t t' : Task) (planned : Except Error Plan) (notes loading : List Exchange)
    (as : List (Attempt ρ)) (result : Except Halt Project) : Prop where
  infiles : t'.infiles = as.map (·.record)
  /-- The attempts follow the plan. -/
  in_order : as = [] ∨ ∃ plan, planned = .ok plan
    ∧ as.map (·.record) <+: plan.order.filter (·.isSource)
  /-- Each attempt is the compile sequence of its source, from some site. -/
  ran : ∀ a ∈ as, a.Ran tr t
  ok_before_last : ∀ a ∈ as.dropLast, a.outcome tr t = .ok ()
  halts : ∀ a ∈ as, ∀ halt, a.outcome tr t = .error halt → result = .error halt
  events : t'.events = as.flatMap (·.events tr t)
  outfiles : t'.outfiles =
    (as.filter fun a => .compiled a.record.physical ∈ a.events tr t).map (·.outfile t)
  /-- Apart from the looks at the flag, what passes is the talk of the loading and then that of
  one attempt after the other. -/
  talks : notes.filter (!·.isLook) = loading ++ as.flatMap (·.talk)
  /-- Before a further attempt all waits of an attempt have been satisfied. -/
  satisfied : ∀ a ∈ as.dropLast, ∃ source rs,
    Performs (t.steps a.record source ++ t.fetchSteps a.record) a.talk (.ok rs)
  failure_last : LastOnly (·.isFailure) notes
  /-- Packages are loaded once at most, and before all else. -/
  load_first : ∀ c ∈ (commands notes).tail, c.isLoadPackages = false
  load_external : ∀ c ∈ commands notes, c.isLoadPackages = true →
    ∃ plan, planned = .ok plan ∧ plan.external.toList ≠ []
  /-- The flag is looked at before each module is set. -/
  looks : ∀ before x after, notes = before ++ x :: after → x.isInit = true →
    before.getLast? = some (.looked false)
  stop_last : LastOnly (·.isStop) notes

theorem not_load_of_mem_talks {tr : Transport ρ} {t : Task} {as : List (Attempt ρ)}
    (h : ∀ a ∈ as, a.Ran tr t) :
    ∀ c ∈ commands (as.flatMap (·.talk)), c.isLoadPackages = false := by
  intro c hc
  obtain ⟨x, hx, hxc⟩ := mem_commands.1 hc
  obtain ⟨a, ha, hxa⟩ := List.mem_flatMap.1 hx
  obtain ⟨-, -, -, ⟨source, hp⟩, -⟩ := (h a ha).compiles.talk
  exact not_load_of_mem t a.record source c (hp.subset (mem_commands.2 ⟨x, hxa, hxc⟩))

theorem getLast?_of_isChain {notes : List Exchange}
    (h : ∀ z, (z :: notes).IsChain AfterLook) (before : List Exchange) (x : Exchange)
    (after : List Exchange) (he : notes = before ++ x :: after) (hx : x.isInit = true) :
    before.getLast? = some (.looked false) := by
  have hc := h (.looked true)
  rw [he, ← List.cons_append, List.isChain_append] at hc
  have := hc.2.2 _ (by rw [List.getLast?_cons]; rfl) x rfl hx
  rcases before with _ | ⟨y, before⟩
  · simp at this
  · simpa [List.getLast?_cons] using this

section Run

variable {tr} {t t' : Task} {planned : Except Error Plan} {loading notes : List Exchange}
  {as : List (Attempt ρ)} {out : Except Halt Unit} {result : Except Halt Project}

theorem Builds.trace (h : Builds tr t planned loading as notes out) (hx : Extends tr t t t' as)
    (hf : t.infiles = [] ∧ t.events = [] ∧ t.outfiles = [])
    (ho : ∀ halt, out = .error halt → result = .error halt) :
    Trace tr t t' planned (.looked false :: notes) loading as result := by
  have hc : commands (.looked false :: notes)
      = commands loading ++ commands (as.flatMap (·.talk)) := by
    rw [← commands_append, ← h.talks, commands_filter_isLook]
    rfl
  have hran : ∀ a ∈ as, a.Ran tr t := by
    rcases h.walk with rfl | ⟨plan, walked, hp, hw⟩
    · simp
    · exact hw.ran
  have hlast : ∀ a ∈ as.dropLast, a.outcome tr t = .ok () := by
    rcases h.walk with rfl | ⟨plan, walked, hp, hw⟩
    · simp
    · exact hw.outcome_of_mem_dropLast
  have hload : commands loading = [] ∨ ∃ names, commands loading = [.loadPackages names] := by
    rcases h.opening.2.2 with rfl | ⟨plan, -, -, hp⟩
    · exact .inl rfl
    · rcases List.prefix_cons_iff.1 hp with hp | ⟨l, hp, hl⟩
      · exact .inl hp
      · rw [List.prefix_nil.1 hl] at hp
        exact .inr ⟨_, hp⟩
  refine ⟨by simpa [hf.1] using hx.infiles, ?_, hran, hlast, ?_, by simpa [hf.2.1] using hx.events,
    by simpa [hf.2.2] using hx.outfiles, by simpa using h.talks, ?_,
    lastOnly_cons rfl h.failure_last, ?_, ?_, ?_, lastOnly_cons rfl h.stop_last⟩
  · rcases h.walk with rfl | ⟨plan, walked, hp, hw⟩
    · exact .inl rfl
    · exact .inr ⟨plan, hp, hw.records_prefix⟩
  · intro a ha halt hah
    rcases h.walk with rfl | ⟨plan, walked, hp, hw⟩
    · simp at ha
    · exact ho halt (hw.halts a ha halt hah)
  · intro a ha
    exact (hran a (List.dropLast_subset _ ha)).compiles.performs_of_ok (hlast a ha)
  · intro c hm
    rw [hc] at hm
    rcases hload with hl | ⟨names, hl⟩ <;> rw [hl] at hm
    · exact not_load_of_mem_talks hran c (List.mem_of_mem_tail hm)
    · exact not_load_of_mem_talks hran c hm
  · intro c hm hcl
    rw [hc] at hm
    rcases List.mem_append.1 hm with hm | hm
    · rcases h.opening.2.2 with rfl | ⟨plan, hp, hn, -⟩
      · simp at hm
      · exact ⟨plan, hp, hn⟩
    · rw [not_load_of_mem_talks hran c hm] at hcl
      simp at hcl
  · refine getLast?_of_isChain fun z => ?_
    rw [List.isChain_cons_cons]
    exact ⟨by simp [AfterLook], h.isChain _⟩

/-- The trace of a run of a new task, whatever its resolver plans, the remote does and others do
to the flag: it is the trace of the same run without a transcript. -/
theorem run_trace (tr : Transport ρ) (input : Project) (resolve : Resolver) (root : String)
    (legacy : Bool) (volume : Volume) (shared : Bool) (name : Option String) (s : Site ρ) :
    let t : Task := { Task.new input root legacy volume shared with resolve }
    ∃ t' s' result notes loading as,
      t.run tr name s = (t', s', result)
        ∧ t.run tr.recorded name (s.note []) = (t', s'.note notes, result)
        ∧ Trace tr t t' (input.plan resolve (tr.meanwhile s).storage) notes loading as result := by
  intro t
  obtain ⟨t', s', result, notes, as, hrun, hrec, hx, hnotes⟩ := run_recorded tr t name s
  rcases hnotes with ⟨rfl, rfl⟩ | ⟨loading, walked, out, rfl, hb, hout, -⟩
  · refine ⟨t', s', result, [.looked true], [], [], hrun, hrec, ?_⟩
    exact ⟨hx.infiles, .inl rfl, by simp, by simp, by simp, hx.events, hx.outfiles, rfl, by simp,
      lastOnly_singleton _, by simp [commands, Exchange.command?],
      by simp [commands, Exchange.command?],
      getLast?_of_isChain (by simp [AfterLook]), lastOnly_singleton _⟩
  · exact ⟨t', s', result, .looked false :: walked, loading, as, hrun, hrec,
      hb.trace hx ⟨rfl, rfl, rfl⟩ hout⟩

end Run

end Task

end Bindery
