import Bindery.Proofs.RunOrder

/-!
# What a completed run leaves

A walk through the plan that does not halt has compiled its sources, or those before a stop:
`compileAll_ok`. So a run that completes has completed the compile sequences of all of them, and
they are what its output is made of: `run_completed`. Where nobody else writes, it has added to a
volume in memory the files compiled from them and has changed no other: `Course.adds`.
-/

namespace Bindery

variable {ρ : Type} {tr : Transport ρ}

namespace Task

/-- The record of the compiled file of a source. -/
def outfile (t : Task) (m : Record) : Record := ⟨some t.volume, m.logical, t.artifact m, none⟩

theorem Alike.outfile_eq {t t' : Task} (h : t'.Alike t) : t'.outfile = t.outfile := by
  funext m
  simp only [outfile, artifact, staged, h.root, h.volume]

theorem compile_ok {t t' : Task} {m : Record} {s s' : Site ρ}
    (h : t.compile tr m s = (t', s', .ok ())) :
    t'.Alike t ∧ t'.infiles = t.infiles ++ [m] ∧ t'.outfiles = t.outfiles ++ [t.outfile m]
      ∧ t'.phase = t.phase := by
  simp only [compile] at h
  split at h <;> simp only [Prod.mk.injEq, reduceCtorEq, and_false] at h
  obtain ⟨rfl, -⟩ := h
  exact ⟨(Alike.refl t).progress _ _ _ _ _, rfl, rfl, rfl⟩

/-- What a walk that does not halt has done: it has compiled the sources among the modules `done`,
and if it leaves others, it is for a stop. -/
structure Leaves (t t' : Task) (s' : Site ρ) (done left : List Record) : Prop where
  alike : t'.Alike t
  infiles : t'.infiles = t.infiles ++ done.filter (·.isSource)
  outfiles : t'.outfiles = t.outfiles ++ (done.filter (·.isSource)).map t.outfile
  ends : left = [] ∧ t'.phase = t.phase ∨ left ≠ [] ∧ t'.phase = .stopped ∧ s'.stopped = true

theorem compileAll_ok : ∀ {order : List Record} {t t' : Task} {s s' : Site ρ},
    t.compileAll tr order s = (t', s', .ok ()) →
    ∃ done left, order = done ++ left ∧ Leaves t t' s' done left
  | [], t, t', s, s', h => by
    cases h
    exact ⟨[], [], rfl, .refl t, by simp, by simp, .inl ⟨rfl, rfl⟩⟩
  | m :: r, t, t', s, s', h => by
    unfold compileAll at h
    simp only at h
    split_ifs at h with hstop hm
    · cases h
      exact ⟨[], m :: r, rfl, (Alike.refl t).progress _ _ _ _ _, by simp, by simp,
        .inr ⟨by simp, rfl, hstop⟩⟩
    · split at h
      · rename_i t₁ s₁ hc
        obtain ⟨hal, hin, hout, hphase⟩ := compile_ok hc
        obtain ⟨done, left, rfl, hleaves⟩ := compileAll_ok h
        refine ⟨m :: done, left, rfl, hleaves.alike.trans hal, ?_, ?_, hphase ▸ hleaves.ends⟩
        · rw [hleaves.infiles, hin, List.filter_cons_of_pos hm, List.append_assoc,
            List.singleton_append]
        · rw [hleaves.outfiles, hout, hal.outfile_eq, List.filter_cons_of_pos hm, List.map_cons,
            List.append_assoc, List.singleton_append]
      · rename_i halted hne
        exact absurd h (hne t' s')
    · obtain ⟨done, left, rfl, hleaves⟩ := compileAll_ok h
      refine ⟨m :: done, left, rfl, hleaves.alike, ?_, ?_, hleaves.ends⟩
      · rw [hleaves.infiles, List.filter_cons_of_neg hm]
      · rw [hleaves.outfiles, List.filter_cons_of_neg hm]

theorem build_ok {t t' : Task} {s s' : Site ρ} (h : t.build tr s = (t', s', .ok ())) :
    ∃ plan done left, t.input.plan t.resolve s.storage = .ok plan ∧ plan.order = done ++ left
      ∧ Leaves t t' s' done left := by
  unfold build at h
  split at h
  · cases h
  · rename_i plan hplan
    split at h
    · cases h
    · obtain ⟨done, left, horder, hleaves⟩ := compileAll_ok h
      exact ⟨plan, done, left, hplan, horder, hleaves⟩

theorem finish_inv {t t' : Task} {name : Option String} {s s' : Site ρ} {p : Project}
    (h : t.finish name s = (t', s', .ok p)) :
    t.outputProject s.storage name = .ok p ∧ t' = { t with output := some p } ∧ s' = s := by
  rw [finish_eq] at h
  rcases ho : t.outputProject s.storage name with e | q <;> rw [ho] at h <;> cases h
  exact ⟨rfl, rfl, rfl⟩

/-- What has come of a run of `t` from `s` that has completed the attempts `as`. -/
structure Completes (tr : Transport ρ) (t t' : Task) (name : Option String) (s s' : Site ρ)
    (p : Project) (plan : Plan) (as : List (Attempt ρ)) : Prop where
  planned : t.input.plan t.resolve (tr.meanwhile s).storage = .ok plan
  course : Course tr t (loadPackages tr plan.external.toList (tr.meanwhile s)).1 as s'
  completed : ∀ a ∈ as, a.Completed tr t
  records : as.map (·.record) = plan.order.filter (·.isSource)
  infiles : t'.infiles = as.map (·.record)
  outfiles : t'.outfiles = as.map (·.outfile t)
  output : t'.output = some p
  project : t'.outputProject s'.storage name = .ok p
  alike : t'.Alike t

theorem run_completed {t t' : Task} {name : Option String} {s s' : Site ρ} {p : Project}
    (hi : t.infiles = []) (ho : t.outfiles = []) (h : t.run tr name s = (t', s', .ok p))
    (hp : t'.phase = .completed) : ∃ plan as, Completes tr t t' name s s' p plan as := by
  have hal : Task.Alike { t with phase := .running } t := (Alike.refl t).progress _ _ _ _ _
  cases run_eq_iff.1 h with
  | stopped _ hr =>
    obtain ⟨-, rfl, -⟩ := finish_inv hr
    cases hp
  | built _ hb hr =>
    obtain ⟨hproject, rfl, rfl⟩ := finish_inv hr
    obtain ⟨loading, as, notes, hbuilds, hcourse, hx, -⟩ := build_walks tr hal (tr.meanwhile s)
    rw [hb] at hbuilds hcourse hx
    obtain ⟨plan, done, left, hplan, horder, hleaves⟩ := build_ok hb
    have hleft : left = [] := by
      rcases hleaves.ends with ⟨hleft, -⟩ | ⟨-, hphase, -⟩
      · exact hleft
      · simp [hphase] at hp
    have hok : ∀ a ∈ as, a.outcome tr t = .ok () := by
      intro a ha
      obtain ⟨plan', walked, -, hw⟩ := hbuilds.walk.resolve_left (List.ne_nil_of_mem ha)
      rcases hout : a.outcome tr t with halt | _
      · cases hw.halts a ha halt hout
      · rfl
    rw [hleft, List.append_nil] at horder
    have hinfiles := hx.infiles
    have hrecords := hleaves.infiles
    have houtfiles := hleaves.outfiles
    simp only [hi, ho, List.nil_append] at hinfiles hrecords houtfiles
    rw [hinfiles, ← horder] at hrecords
    refine ⟨plan, as, hplan, hcourse plan hplan, fun a ha => completed_of_ok (hok a ha), hrecords,
      hinfiles, ?_, rfl, hproject, hx.alike.progress _ _ _ _ _⟩
    rw [houtfiles, ← horder, ← hrecords, List.map_map]
    rfl

end Task

/-- The transport changes no file, nor do others meanwhile. -/
structure Transport.LeavesFiles (tr : Transport ρ) : Prop where
  send : ∀ c s, (tr.send c s).1.storage = s.storage
  receive : ∀ s, (tr.receive s).1.storage = s.storage
  meanwhile : ∀ s, (tr.meanwhile s).storage = s.storage

namespace Transport.LeavesFiles

variable (h : tr.LeavesFiles)
include h

theorem expect (e : Expectation) (s : Site ρ) : (tr.expect e s).1.storage = s.storage := by
  induction s using Transport.expect.induct tr e with
  | case1 s s' halt hr =>
    rw [Transport.expect, hr, ← h.receive s, hr]
  | case2 s s' r hr hj =>
    rw [Transport.expect, hr, ← h.receive s, hr]
    simp only [hj]
  | case3 s s' r hr hj =>
    rw [Transport.expect, hr, ← h.receive s, hr]
    simp only [hj]
  | case4 s s' r hr hj ih =>
    rw [Transport.expect, hr, ← h.receive s, hr]
    simp only [hj]
    exact ih

theorem perform : ∀ (steps : List Step) (s : Site ρ),
    (tr.perform steps s).1.storage = s.storage
  | [], _ => rfl
  | .send c :: steps, s => by
    have hs := h.send c s
    rw [Transport.perform]
    rcases hc : tr.send c s with ⟨s', e | _⟩ <;> rw [hc] at hs
    · exact hs
    · exact (perform steps s').trans hs
  | .expect e :: steps, s => by
    have hs := expect h e s
    rw [Transport.perform]
    rcases he : tr.expect e s with ⟨s', halt | r⟩ <;> rw [he] at hs
    · exact hs
    · have hr := perform steps s'
      simp only
      rcases hp : tr.perform steps s' with ⟨s'', halt | rs⟩ <;> rw [hp] at hr <;>
        exact hr.trans hs

end Transport.LeavesFiles

/-- Files of some names are added to a memory, and no volume elsewhere changes. -/
structure Storage.Adds (slot : Nat) (names : List String) (st st' : Storage) : Prop where
  length : st'.memories.length = st.memories.length
  keys : ∀ k, k ∈ (st'.files slot).keys ↔ k ∈ (st.files slot).keys ∨ k ∈ names
  read : ∀ w : Volume, w.medium ≠ .memory slot → ∀ path, st'.read w path = st.read w path

namespace Storage.Adds

variable {slot : Nat} {names more : List String} {st st₁ st₂ : Storage}

theorem refl (st : Storage) : Adds slot [] st st := ⟨rfl, by simp, fun _ _ _ => rfl⟩

theorem trans (h : Adds slot names st st₁) (h' : Adds slot more st₁ st₂) :
    Adds slot (names ++ more) st st₂ :=
  ⟨h'.length.trans h.length, fun k => by rw [h'.keys, h.keys, List.mem_append, or_assoc],
    fun w hw path => (h'.read w hw path).trans (h.read w hw path)⟩

theorem of_write {v : Volume} {path : String} {content : ByteArray}
    (hm : v.medium = .memory slot) (hlt : slot < st.memories.length)
    (h : st.write v path content = .ok st₁) : Adds slot [path] st st₁ := by
  simp only [write, hm, Except.ok.injEq] at h
  subst h
  have hfiles := files_set hlt ((st.files slot).insert path content)
  refine ⟨by simp, fun k => ?_, fun w hw p => ?_⟩
  · rw [hfiles, if_pos rfl, List.mem_singleton, or_comm]
    exact Table.mem_keys_put
  · unfold Storage.read
    rcases hwm : w.medium with n | n | _
    · have hn : n ≠ slot := fun hn => hw (hn ▸ hwm)
      simp only [hfiles, if_neg hn]
    · rfl
    · rfl

end Storage.Adds

namespace Task

theorem storage_loadPackages (hl : tr.LeavesFiles) (packages : List String) (s : Site ρ) :
    (loadPackages tr packages s).1.storage = s.storage := by
  unfold loadPackages
  split
  · rfl
  · exact hl.perform _ s

theorem Course.adds {t : Task} {slot : Nat} (hl : tr.LeavesFiles)
    (hm : t.volume.medium = .memory slot) (hsh : t.shared = false) {s s' : Site ρ}
    {as : List (Attempt ρ)} (h : Course tr t s as s') (hc : ∀ a ∈ as, a.Completed tr t)
    (hlt : slot < s.storage.memories.length) :
    Storage.Adds slot (as.map fun a => t.artifact a.record) s.storage s'.storage := by
  induction h with
  | refl s => exact .refl _
  | @looked s s' as _ ih =>
    have hs := hl.meanwhile s
    rw [← hs] at hlt ⊢
    exact ih hc hlt
  | @attempted a s' as _ ih =>
    obtain ⟨ha, hr⟩ := List.forall_mem_cons.1 hc
    have hadds : Storage.Adds slot [t.artifact a.record] a.site.storage
        (t.compileSteps tr a.record a.site).1.storage := by
      cases ha with
      | shared hshared _ _ _ =>
        rw [hsh] at hshared
        cases hshared
      | @fetched source content s₁ s₂ storage _ _ _ _ _ hperform hget hwrite hsteps =>
        have hs₁ := hl.perform (t.steps a.record source) a.site
        have hs₂ := hl.perform [.send (.get (t.artifact a.record)), .await .got] s₁
        rw [hperform] at hs₁
        rw [hget, hs₁] at hs₂
        rw [hs₂] at hwrite
        rw [hsteps]
        exact .of_write hm hlt hwrite
    exact hadds.trans (ih hr (hadds.length ▸ hlt))

end Task

end Bindery
