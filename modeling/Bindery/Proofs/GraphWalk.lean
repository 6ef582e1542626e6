import Bindery.Plan.Graph
import Mathlib.Data.List.Basic
import Mathlib.Logic.Relation

/-!
# What a walk through a graph finds

From where a walk stands, `Explored` says what visiting some nodes adds: all that can be reached
from them without what had been discovered, each node once, and finished in such an order that a
node comes after all that it reaches, unless they are on a common cycle. `exists_explored` says
that a walk is deep enough to find all this.
-/

namespace Bindery

/-- What divides a list that is put together of two stands in one of them. -/
theorem append_eq_append_cons {α : Type} {a b c d : List α} {y : α}
    (h : a ++ b = c ++ y :: d) :
    (∃ l, a = c ++ y :: l ∧ d = l ++ b) ∨ ∃ l, c = a ++ l ∧ b = l ++ y :: d := by
  rcases List.append_eq_append_iff.1 h with ⟨l, hc, hb⟩ | ⟨l, ha, hd⟩
  · exact .inr ⟨l, hc, hb⟩
  · rcases l with _ | ⟨y', l⟩
    · refine .inr ⟨[], ?_, ?_⟩
      · rw [List.append_nil, ha, List.append_nil]
      · rw [List.nil_append, hd, List.nil_append]
    · obtain ⟨rfl, rfl⟩ := List.cons.inj hd
      exact .inl ⟨l, ha, rfl⟩

namespace Graph

variable {next : String → List String}

/-- Along edges to nodes that have not been seen. -/
def Reaches (next : String → List String) (seen : List String) : String → String → Prop :=
  Relation.ReflTransGen fun a b => b ∈ next a ∧ b ∉ seen

theorem reaches_nil {x y : String} :
    Reaches next [] x y ↔ Relation.ReflTransGen (fun a b => b ∈ next a) x y := by
  simp [Reaches]

namespace Reaches

variable {seen extra found : List String} {x y : String}

theorem mono (h : Reaches next (seen ++ extra) x y) : Reaches next seen x y := by
  refine Relation.ReflTransGen.mono (fun a b he => ?_) x y h
  exact ⟨he.1, fun hs => he.2 (List.mem_append_left _ hs)⟩

/-- A path keeps clear of some nodes or leads through one of them. -/
theorem split (extra : List String) (h : Reaches next seen x y) :
    Reaches next (seen ++ extra) x y
      ∨ ∃ u ∈ extra, Reaches next seen x u ∧ Reaches next seen u y := by
  induction h with
  | refl => exact .inl .refl
  | @tail b c hb hc ih =>
    rcases ih with ih | ⟨u, hu, hxu, huy⟩
    · by_cases hx : c ∈ extra
      · exact .inr ⟨c, hx, hb.tail hc, .refl⟩
      · have hc' : c ∉ seen ++ extra := by simp [hc.2, hx]
        exact .inl (ih.tail ⟨hc.1, hc'⟩)
    · exact .inr ⟨u, hu, hxu, huy.tail hc⟩

/-- What contains the ends of its edges, but for what has been seen, cannot be left. -/
theorem mem_of_closed (hc : ∀ a ∈ found, ∀ b ∈ next a, b ∈ found ∨ b ∈ seen) (hx : x ∈ found)
    (h : Reaches next seen x y) : y ∈ found := by
  induction h with
  | refl => exact hx
  | tail _ hc' ih => exact (hc _ ih _ hc'.1).resolve_right hc'.2

end Reaches

/-- The nodes that have not been discovered. -/
def undiscovered (nodes : List String) (w : Walk) : List String :=
  nodes.filter (· ∉ w.discovered)

theorem length_undiscovered_lt {nodes : List String} {w w' : Walk} {n : String} (hn : n ∈ nodes)
    (hw : n ∉ w.discovered) (hw' : n ∈ w'.discovered) (hs : w.discovered ⊆ w'.discovered) :
    (undiscovered nodes w').length < (undiscovered nodes w).length := by
  have hsub : undiscovered nodes w' = (undiscovered nodes w).filter (· ∉ w'.discovered) := by
    unfold undiscovered
    rw [List.filter_filter]
    refine List.filter_congr fun a _ => ?_
    by_cases ha : a ∈ w'.discovered
    · simp [ha]
    · have : a ∉ w.discovered := fun h => ha (hs h)
      simp [ha, this]
  rw [hsub, List.length_filter_lt_length_iff_exists]
  refine ⟨n, ?_, by simpa using hw'⟩
  exact List.mem_filter.2 ⟨hn, by simpa using hw⟩

/-- What visiting some nodes adds to a walk. -/
structure Explored (next : String → List String) (w w' : Walk) (starts found fin : List String) :
    Prop where
  discovered : w'.discovered = w.discovered ++ found
  finished : w'.finished = w.finished ++ fin
  perm : fin.Perm found
  nodup : found.Nodup
  fresh : ∀ a ∈ found, a ∉ w.discovered
  visited : ∀ r ∈ starts, r ∈ found ∨ r ∈ w.discovered
  closed : ∀ a ∈ found, ∀ b ∈ next a, b ∈ found ∨ b ∈ w.discovered
  reached : ∀ a ∈ found, ∃ r ∈ starts, r ∉ w.discovered ∧ Reaches next w.discovered r a
  /-- What reaches a node does not finish before it, or something on a cycle with it does not. -/
  order : ∀ before y after, fin = before ++ y :: after → ∀ x ∈ found,
    Reaches next w.discovered x y →
    ∃ z ∈ y :: after, Reaches next w.discovered x z ∧ Reaches next w.discovered z x

namespace Explored

variable {w w₁ w₂ : Walk} {r₁ r₂ f₁ f₂ n₁ n₂ : List String} {n : String}

theorem refl (h : ∀ r ∈ r₁, r ∈ w.discovered) : Explored next w w r₁ [] [] where
  discovered := by simp
  finished := by simp
  perm := .refl _
  nodup := List.nodup_nil
  fresh := by simp
  visited := fun r hr => .inr (h r hr)
  closed := by simp
  reached := by simp
  order := by simp

theorem subset (h : Explored next w w₁ r₁ f₁ n₁) : w.discovered ⊆ w₁.discovered := by
  rw [h.discovered]
  exact List.subset_append_left _ _

/-- What a second visit finds is new to the walk and to the first visit. -/
theorem fresh_append (h₁ : Explored next w w₁ r₁ f₁ n₁) (h₂ : Explored next w₁ w₂ r₂ f₂ n₂)
    {a : String} (ha : a ∈ f₂) : a ∉ w.discovered ∧ a ∉ f₁ := by
  have h := h₂.fresh a ha
  rw [h₁.discovered, List.mem_append, not_or] at h
  exact h

theorem order_append (h₁ : Explored next w w₁ r₁ f₁ n₁) (h₂ : Explored next w₁ w₂ r₂ f₂ n₂)
    {before after : List String} {x y : String} (he : n₁ ++ n₂ = before ++ y :: after)
    (hx : x ∈ f₁ ++ f₂) (hxy : Reaches next w.discovered x y) :
    ∃ z ∈ y :: after, Reaches next w.discovered x z ∧ Reaches next w.discovered z x := by
  rcases append_eq_append_cons he with ⟨l, hn₁, rfl⟩ | ⟨l, rfl, hn₂⟩
  · rcases List.mem_append.1 hx with hx | hx
    · obtain ⟨z, hz, hxz, hzx⟩ := h₁.order before y l hn₁ x hx hxy
      refine ⟨z, ?_, hxz, hzx⟩
      rw [← List.cons_append]
      exact List.mem_append_left _ hz
    · have hx' : x ∈ n₂ := h₂.perm.mem_iff.2 hx
      exact ⟨x, by simp [hx'], .refl, .refl⟩
  · have hy : y ∈ f₂ := h₂.perm.mem_iff.1 (by simp [hn₂])
    have hy₁ : y ∉ f₁ := (h₁.fresh_append h₂ hy).2
    -- A path from the first part cannot leave it, so it does not end in the second.
    rcases List.mem_append.1 hx with hx | hx
    · exact absurd (hxy.mem_of_closed h₁.closed hx) hy₁
    · rcases hxy.split f₁ with hxy | ⟨u, hu, -, huy⟩
      · rw [← h₁.discovered] at hxy
        obtain ⟨z, hz, hxz, hzx⟩ := h₂.order l y after hn₂ x hx hxy
        rw [h₁.discovered] at hxz hzx
        exact ⟨z, hz, hxz.mono, hzx.mono⟩
      · exact absurd (huy.mem_of_closed h₁.closed hu) hy₁

/-- One visit after the other. -/
theorem append (h₁ : Explored next w w₁ r₁ f₁ n₁) (h₂ : Explored next w₁ w₂ r₂ f₂ n₂) :
    Explored next w w₂ (r₁ ++ r₂) (f₁ ++ f₂) (n₁ ++ n₂) where
  discovered := by rw [h₂.discovered, h₁.discovered, List.append_assoc]
  finished := by rw [h₂.finished, h₁.finished, List.append_assoc]
  perm := h₁.perm.append h₂.perm
  nodup := by
    rw [List.nodup_append]
    refine ⟨h₁.nodup, h₂.nodup, ?_⟩
    rintro a ha b hb rfl
    exact (h₁.fresh_append h₂ hb).2 ha
  fresh := by
    intro a ha
    rcases List.mem_append.1 ha with ha | ha
    · exact h₁.fresh a ha
    · exact (h₁.fresh_append h₂ ha).1
  visited := by
    intro r hr
    rcases List.mem_append.1 hr with hr | hr
    · rcases h₁.visited r hr with h | h <;> simp [h]
    · rcases h₂.visited r hr with h | h
      · simp [h]
      · rw [h₁.discovered] at h
        rcases List.mem_append.1 h with h | h <;> simp [h]
  closed := by
    intro a ha b hb
    rcases List.mem_append.1 ha with ha | ha
    · rcases h₁.closed a ha b hb with h | h <;> simp [h]
    · rcases h₂.closed a ha b hb with h | h
      · simp [h]
      · rw [h₁.discovered] at h
        rcases List.mem_append.1 h with h | h <;> simp [h]
  reached := by
    intro a ha
    rcases List.mem_append.1 ha with ha | ha
    · obtain ⟨r, hr, hra⟩ := h₁.reached a ha
      exact ⟨r, List.mem_append_left _ hr, hra⟩
    · obtain ⟨r, hr, hrd, hra⟩ := h₂.reached a ha
      rw [h₁.discovered] at hrd hra
      exact ⟨r, List.mem_append_right _ hr, fun h => hrd (List.mem_append_left _ h), hra.mono⟩
  order := fun _ _ _ he _ hx hxy => h₁.order_append h₂ he hx hxy

section Node

variable (hn : n ∉ w.discovered)
  (h : Explored next { w with discovered := w.discovered ++ [n] } w₁ (next n) f₁ n₁)

include hn h

/-- A node reaches all that is found below it. -/
theorem reaches_node {x : String} (hx : x ∈ n :: f₁) : Reaches next w.discovered n x := by
  rcases List.mem_cons.1 hx with rfl | hx
  · exact .refl
  · obtain ⟨r, hr, hrd, hrx⟩ := h.reached x hx
    have hrw : r ∉ w.discovered := fun hw => hrd (List.mem_append_left _ hw)
    exact Relation.ReflTransGen.head ⟨hr, hrw⟩ hrx.mono

theorem order_node {before after : List String} {x y : String}
    (he : n₁ ++ [n] = before ++ y :: after) (hx : x ∈ n :: f₁)
    (hxy : Reaches next w.discovered x y) :
    ∃ z ∈ y :: after, Reaches next w.discovered x z ∧ Reaches next w.discovered z x := by
  have hnx := reaches_node hn h hx
  rcases append_eq_append_cons he with ⟨l, hn₁, rfl⟩ | ⟨l, rfl, hn₂⟩
  · rcases List.mem_cons.1 hx with rfl | hx
    · exact ⟨x, by simp, .refl, .refl⟩
    · rcases hxy.split [n] with hxy | ⟨u, hu, hxu, -⟩
      · obtain ⟨z, hz, hxz, hzx⟩ := h.order before y l hn₁ x hx hxy
        refine ⟨z, ?_, hxz.mono, hzx.mono⟩
        rw [← List.cons_append]
        exact List.mem_append_left _ hz
      · rw [List.mem_singleton.1 hu] at hxu
        exact ⟨n, by simp, hxu, hnx⟩
  · have hy : y ∈ [n] := by simp [hn₂]
    rw [List.mem_singleton.1 hy] at hxy ⊢
    exact ⟨n, by simp, hxy, hnx⟩

/-- A node around what is found from the ends of its edges. -/
theorem node :
    Explored next w { w₁ with finished := w₁.finished ++ [n] } [n] (n :: f₁) (n₁ ++ [n]) where
  discovered := by rw [h.discovered, List.append_assoc]; rfl
  finished := by rw [h.finished, List.append_assoc]
  perm := (List.perm_append_singleton _ _).trans (h.perm.cons n)
  nodup := List.nodup_cons.2 ⟨fun ha => h.fresh n ha (by simp), h.nodup⟩
  fresh := by
    intro a ha
    rcases List.mem_cons.1 ha with rfl | ha
    · exact hn
    · exact fun hw => h.fresh a ha (List.mem_append_left _ hw)
  visited := fun r hr => .inl (by simp [List.mem_singleton.1 hr])
  closed := by
    intro a ha b hb
    have hsplit : b ∈ f₁ ∨ b ∈ w.discovered ++ [n] := by
      rcases List.mem_cons.1 ha with rfl | ha
      · exact h.visited b hb
      · exact h.closed a ha b hb
    rcases hsplit with hb | hb
    · exact .inl (List.mem_cons_of_mem _ hb)
    · rcases List.mem_append.1 hb with hb | hb
      · exact .inr hb
      · exact .inl (by simp [List.mem_singleton.1 hb])
  reached := fun a ha => ⟨n, by simp, hn, reaches_node hn h ha⟩
  order := fun _ _ _ he _ hx hxy => order_node hn h he hx hxy

end Node

end Explored

section Depth

variable {nodes : List String}

theorem exists_explored_foldl {step : Walk → String → Walk} :
    ∀ (starts : List String) (w : Walk),
      (∀ w' n, w.discovered ⊆ w'.discovered → n ∈ starts →
        ∃ found fin, Explored next w' (step w' n) [n] found fin) →
      ∃ found fin, Explored next w (starts.foldl step w) starts found fin
  | [], _, _ => ⟨[], [], .refl (by simp)⟩
  | n :: r, w, h => by
    obtain ⟨f₁, n₁, h₁⟩ := h w n (List.Subset.refl _) (by simp)
    obtain ⟨f₂, n₂, h₂⟩ := exists_explored_foldl r (step w n) fun w' m hw hm =>
      h w' m (List.Subset.trans h₁.subset hw) (List.mem_cons_of_mem _ hm)
    exact ⟨f₁ ++ f₂, n₁ ++ n₂, h₁.append h₂⟩

/-- Levels for all nodes that have not been discovered are enough. -/
theorem exists_explored_visit (hclosed : ∀ a ∈ nodes, ∀ b ∈ next a, b ∈ nodes) :
    ∀ (depth : Nat) (w : Walk) (n : String), n ∈ nodes →
      (undiscovered nodes w).length < depth →
      ∃ found fin, Explored next w (visit next depth w n) [n] found fin
  | 0, _, _, _, hd => absurd hd (Nat.not_lt_zero _)
  | depth + 1, w, n, hn, hd => by
    by_cases hw : n ∈ w.discovered
    · refine ⟨[], [], ?_⟩
      rw [visit, if_pos hw]
      exact .refl (by simpa using hw)
    · obtain ⟨found, fin, h⟩ := exists_explored_foldl (next n)
        { w with discovered := w.discovered ++ [n] } fun w' m hw' hm => by
          have hlt : (undiscovered nodes w').length < (undiscovered nodes w).length :=
            length_undiscovered_lt hn hw (hw' (by simp))
              (List.Subset.trans (List.subset_append_left _ _) hw')
          exact exists_explored_visit hclosed depth w' m (hclosed n hn m hm) (by omega)
      refine ⟨n :: found, fin ++ [n], ?_⟩
      rw [visit, if_neg hw]
      exact .node hw h

theorem exists_explored (g : Graph) (hclosed : ∀ a ∈ g.nodes, ∀ b ∈ next a, b ∈ g.nodes)
    (w : Walk) (starts : List String)
    (hs : ∀ r ∈ starts, r ∈ g.nodes) :
    ∃ found fin, Explored next w (g.walk next w starts) starts found fin := by
  refine exists_explored_foldl starts w fun w' n _ hn => ?_
  refine exists_explored_visit hclosed _ w' n (hs n hn) ?_
  have hle : (undiscovered g.nodes w').length ≤ g.nodes.length := List.length_filter_le _ _
  omega

end Depth

end Graph

end Bindery
