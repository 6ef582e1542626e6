import Bindery.Proofs.Transcript

/-!
# Steps in sequence

Steps that come after others are performed from the site that the others lead to, if those are all
taken, and not at all otherwise: `Transport.perform_append`. A step is taken if its command is sent,
or if of the replies that come in the first one that its expectation does not ignore is one that it
accepts. The first step that is not taken ends the sequence, with the error that it met or with the
reply that it rejects. So what passes is accounted for step by step: `Transport.perform_accounts`.
-/

namespace Bindery

namespace Expectation

variable {e : Expectation} {r : Reply}

def Accepts (e : Expectation) (r : Reply) : Prop := r.tag ∈ e.accept

/-- The reply fails the wait. A kind that is both accepted and rejected is accepted. -/
def Rejects (e : Expectation) (r : Reply) : Prop := r.tag ∉ e.accept ∧ r.tag ∈ e.reject

def Ignores (e : Expectation) (r : Reply) : Prop := r.tag ∉ e.accept ∧ r.tag ∉ e.reject

theorem judge_eq_satisfied : e.judge r = .satisfied ↔ e.Accepts r := by
  unfold judge Accepts
  split_ifs <;> simp_all

theorem judge_eq_failed : e.judge r = .failed ↔ e.Rejects r := by
  unfold judge Rejects
  split_ifs <;> simp_all

theorem judge_eq_unrelated : e.judge r = .unrelated ↔ e.Ignores r := by
  unfold judge Ignores
  split_ifs <;> simp_all

end Expectation

namespace Step

/-- What passes at a step that is taken, and the replies that it gives. -/
inductive Succeeds : Step → List Exchange → List Reply → Prop where
  | sent (c : Command) : Succeeds (.send c) [.sent c] []
  /-- Of the replies that come in the first one that is not ignored is accepted. -/
  | accepted {e : Expectation} (ignored : List Reply) {r : Reply} :
      (∀ x ∈ ignored, e.Ignores x) → e.Accepts r →
      Succeeds (.expect e) (ignored.map .received ++ [.received r]) [r]

/-- What passes at a step that ends a sequence, and why it does. -/
inductive Fails : Step → List Exchange → Halt → Prop where
  | unsent (c : Command) (e : Error) : Fails (.send c) [.unsent c e] (.failed e)
  /-- Of the replies that come in the first one that is not ignored is rejected. -/
  | rejected {e : Expectation} (ignored : List Reply) {r : Reply} :
      (∀ x ∈ ignored, e.Ignores x) → e.Rejects r →
      Fails (.expect e) (ignored.map .received ++ [.received r]) (.failed (.failure r))
  /-- The replies that come in are all ignored, and then no more can be received. -/
  | halted {e : Expectation} (ignored : List Reply) (h : Halt) :
      (∀ x ∈ ignored, e.Ignores x) →
      Fails (.expect e) (ignored.map .received ++ [.halted h]) h

variable {e : Expectation} {r : Reply} {notes : List Exchange}

theorem Succeeds.ignore {rs : List Reply} (hr : e.Ignores r) (h : Succeeds (.expect e) notes rs) :
    Succeeds (.expect e) (.received r :: notes) rs := by
  cases h with
  | accepted ignored hignored ha =>
    exact .accepted (r :: ignored) (List.forall_mem_cons.2 ⟨hr, hignored⟩) ha

theorem Fails.ignore {h : Halt} (hr : e.Ignores r) (hf : Fails (.expect e) notes h) :
    Fails (.expect e) (.received r :: notes) h := by
  cases hf with
  | rejected ignored hignored hr' =>
    exact .rejected (r :: ignored) (List.forall_mem_cons.2 ⟨hr, hignored⟩) hr'
  | halted ignored h hignored =>
    exact .halted (r :: ignored) h (List.forall_mem_cons.2 ⟨hr, hignored⟩)

end Step

theorem Awaits.succeeds {e : Expectation} : ∀ {notes : List Exchange} {r : Reply},
    Awaits e notes (.ok r) → Step.Succeeds (.expect e) notes [r]
  | _, _, .satisfied hj =>
    .accepted [] (by simp) (Expectation.judge_eq_satisfied.1 hj)
  | _, _, .unrelated hj h => h.succeeds.ignore (Expectation.judge_eq_unrelated.1 hj)

theorem Awaits.fails {e : Expectation} : ∀ {notes : List Exchange} {h : Halt},
    Awaits e notes (.error h) → Step.Fails (.expect e) notes h
  | _, _, .failed hj => .rejected [] (by simp) (Expectation.judge_eq_failed.1 hj)
  | _, _, .halted h => .halted [] h (by simp)
  | _, _, .unrelated hj h => h.fails.ignore (Expectation.judge_eq_unrelated.1 hj)

/-- What passes at steps that are all taken, and their replies, put together of the parts of each
step. -/
def AllSucceed (steps : List Step) (notes : List Exchange) (rs : List Reply) : Prop :=
  ∃ parts : List (List Exchange × List Reply),
    List.Forall₂ (fun st part => st.Succeeds part.1 part.2) steps parts
      ∧ notes = (parts.map (·.1)).flatten ∧ rs = (parts.map (·.2)).flatten

theorem allSucceed_nil : AllSucceed [] [] [] := ⟨[], .nil, rfl, rfl⟩

theorem AllSucceed.cons {st : Step} {steps : List Step} {said notes : List Exchange}
    {given rs : List Reply} (hst : st.Succeeds said given) (h : AllSucceed steps notes rs) :
    AllSucceed (st :: steps) (said ++ notes) (given ++ rs) := by
  obtain ⟨parts, hparts, rfl, rfl⟩ := h
  exact ⟨(said, given) :: parts, .cons hst hparts, rfl, rfl⟩

/-- What passes while steps are performed, by their outcome: each step is taken, or the first steps
are and the next one fails, after which nothing passes any more. -/
def Accounts (steps : List Step) (notes : List Exchange) : Except Halt (List Reply) → Prop
  | .ok rs => AllSucceed steps notes rs
  | .error h => ∃ done st rest said last rs, steps = done ++ st :: rest ∧ notes = said ++ last
    ∧ AllSucceed done said rs ∧ st.Fails last h

theorem Accounts.cons {st : Step} {steps : List Step} {said notes : List Exchange}
    {given : List Reply} (hst : st.Succeeds said given) : ∀ {out : Except Halt (List Reply)},
    Accounts steps notes out → Accounts (st :: steps) (said ++ notes) (out.map (given ++ ·))
  | .ok _, h => AllSucceed.cons hst h
  | .error _, ⟨done, st', rest, said', last, rs, hsteps, hnotes, hdone, hlast⟩ =>
    ⟨st :: done, st', rest, said ++ said', last, given ++ rs, by rw [hsteps, List.cons_append],
      by rw [hnotes, List.append_assoc], hdone.cons hst, hlast⟩

theorem accounts_of_fails {st : Step} {notes : List Exchange} {h : Halt} (hst : st.Fails notes h)
    (steps : List Step) : Accounts (st :: steps) notes (.error h) :=
  ⟨[], st, steps, [], notes, [], rfl, rfl, allSucceed_nil, hst⟩

theorem Performs.accounts {steps : List Step} {notes : List Exchange}
    {out : Except Halt (List Reply)} (h : Performs steps notes out) : Accounts steps notes out := by
  induction h with
  | nil => exact allSucceed_nil
  | @sent c steps notes out _ ih =>
    have hall := ih.cons (.sent c)
    rcases out with h | rs <;> exact hall
  | @unsent c steps e => exact accounts_of_fails (.unsent c e) steps
  | awaited hw _ ih => exact ih.cons hw.succeeds
  | @halted e steps waited h hw => exact accounts_of_fails hw.fails steps

namespace Transport

variable {ρ : Type}

/-- Goes on where the first steps lead, if they are all taken, and puts the replies together. -/
def andThen (first : Site ρ × Except Halt (List Reply))
    (next : Site ρ → Site ρ × Except Halt (List Reply)) : Site ρ × Except Halt (List Reply) :=
  match first with
  | (s, .ok rs) => ((next s).1, (next s).2.map (rs ++ ·))
  | (s, .error h) => (s, .error h)

theorem andThen_nil (s : Site ρ) (next : Site ρ → Site ρ × Except Halt (List Reply)) :
    andThen (s, .ok []) next = next s := by
  rcases hn : next s with ⟨s', h | rs⟩ <;> simp [andThen, hn, Except.map]

variable (tr : Transport ρ)

theorem perform_append : ∀ (xs ys : List Step) (s : Site ρ),
    tr.perform (xs ++ ys) s = andThen (tr.perform xs s) (tr.perform ys)
  | [], ys, s => by rw [List.nil_append, perform, andThen_nil]
  | .send c :: xs, ys, s => by
    rw [List.cons_append, perform, perform]
    rcases tr.send c s with ⟨s', e | _⟩
    · rfl
    · exact perform_append xs ys s'
  | .expect e :: xs, ys, s => by
    rw [List.cons_append, perform, perform]
    rcases tr.expect e s with ⟨s', h | r⟩
    · rfl
    · simp only [perform_append xs ys s']
      rcases tr.perform xs s' with ⟨s₁, h | rs⟩
      · rfl
      · simp only [andThen]
        rcases tr.perform ys s₁ with ⟨s₂, h | rs'⟩ <;> rfl

/-- Steps after steps are performed as the second ones where the first ones lead, with the same
commands and replies on record; and of what passes each step accounts for a part: its command, or
the replies up to the first one that it does not ignore. -/
theorem perform_accounts (xs ys : List Step) (s : Site ρ) :
    tr.perform (xs ++ ys) s = andThen (tr.perform xs s) (tr.perform ys)
      ∧ (∀ l, tr.recorded.perform (xs ++ ys) (s.note l)
        = andThen (tr.recorded.perform xs (s.note l)) (tr.recorded.perform ys))
      ∧ ∃ notes, Accounts xs notes (tr.perform xs s).2
        ∧ ∀ l, tr.recorded.perform xs (s.note l)
          = ((tr.perform xs s).1.note (l ++ notes), (tr.perform xs s).2) := by
  obtain ⟨notes, hnotes, hrecorded⟩ := perform_recorded tr xs s
  exact ⟨tr.perform_append xs ys s, fun l => tr.recorded.perform_append xs ys (s.note l), notes,
    hnotes.accounts, hrecorded⟩

end Transport

end Bindery
