import Bindery.Proofs.GraphWalk

/-!
# Cycles and the order of a graph

The two looks for a cycle, `cycle?` for components of several nodes and `loop?` for edges from a
node to itself, see one exactly if there is one: `cyclic_iff`. Without a cycle the nodes are sorted
along the edges: `mem_of_sorted`.
-/

namespace Bindery.Graph

variable {g : Graph}

/-- An edge leads from one node to another. -/
def Edge (g : Graph) (a b : String) : Prop := (a, b) ∈ g.edges

/-- The ends of the edges are nodes. -/
def Closed (g : Graph) : Prop := ∀ a b, g.Edge a b → a ∈ g.nodes ∧ b ∈ g.nodes

theorem mem_successors {a b : String} : b ∈ g.successors a ↔ g.Edge a b := by
  simp [successors, Edge]

theorem mem_predecessors {a b : String} : a ∈ g.predecessors b ↔ g.Edge a b := by
  simp [predecessors, Edge]

/-- From one node to another along the edges. -/
def Leads (g : Graph) : String → String → Prop := Relation.ReflTransGen g.Edge

theorem Closed.leads {a b : String} (hg : g.Closed) (ha : a ∈ g.nodes) (h : g.Leads a b) :
    b ∈ g.nodes := by
  rcases h.cases_tail with rfl | ⟨_, -, he⟩
  · exact ha
  · exact (hg _ _ he).2

theorem reaches_successors {a b : String} : Reaches g.successors [] a b ↔ g.Leads a b := by
  simp only [reaches_nil, mem_successors]
  rfl

theorem reaches_predecessors {a b : String} : Reaches g.predecessors [] a b ↔ g.Leads b a := by
  simp only [reaches_nil, mem_predecessors]
  exact Relation.reflTransGen_swap

/-- A walk from all nodes finds exactly them. -/
theorem exists_explored_nodes {next : String → List String}
    (hclosed : ∀ a ∈ g.nodes, ∀ b ∈ next a, b ∈ g.nodes) :
    ∃ found fin, Explored next ⟨[], []⟩ (g.walk next ⟨[], []⟩ g.nodes) g.nodes found fin
      ∧ ∀ a, a ∈ found ↔ a ∈ g.nodes := by
  obtain ⟨found, fin, h⟩ := exists_explored g hclosed ⟨[], []⟩ g.nodes fun _ hr => hr
  refine ⟨found, fin, h, fun a => ⟨fun ha => ?_, fun ha => ?_⟩⟩
  · obtain ⟨r, hr, -, hra⟩ := h.reached a ha
    exact hra.mem_of_closed (fun a ha b hb => .inl (hclosed a ha b hb)) hr
  · exact (h.visited a ha).resolve_right (by simp)

theorem Closed.successors (hg : g.Closed) : ∀ a ∈ g.nodes, ∀ b ∈ g.successors a, b ∈ g.nodes :=
  fun a _ b hb => (hg a b (mem_successors.1 hb)).2

theorem Closed.predecessors (hg : g.Closed) :
    ∀ a ∈ g.nodes, ∀ b ∈ g.predecessors a, b ∈ g.nodes :=
  fun a _ b hb => (hg b a (mem_predecessors.1 hb)).1

theorem perm_sorted (hg : g.Closed) (hn : g.nodes.Nodup) : g.sorted.Perm g.nodes := by
  obtain ⟨found, fin, h, hfound⟩ := exists_explored_nodes hg.successors
  have hfin : g.sorted = fin.reverse := by rw [sorted, h.finished]; rfl
  have hperm : found.Perm g.nodes := (List.perm_ext_iff_of_nodup h.nodup hn).2 hfound
  rw [hfin]
  exact (List.reverse_perm fin).trans (h.perm.trans hperm)

/-- Without a cycle a node stands before the ends of its edges. -/
theorem mem_of_sorted (hg : g.Closed) (hc : ∀ n, ¬ Relation.TransGen g.Edge n n)
    {a b : String} (he : g.Edge a b) {front back : List String}
    (hs : g.sorted = front ++ b :: back) : a ∈ front := by
  obtain ⟨found, fin, h, hfound⟩ := exists_explored_nodes hg.successors
  have hfin : fin = back.reverse ++ b :: front.reverse := by
    have hrev : fin.reverse = front ++ b :: back := by rw [← hs, sorted, h.finished]; rfl
    rw [← List.reverse_reverse fin, hrev]
    simp
  have ha : a ∈ found := (hfound a).2 (hg a b he).1
  have hab : Reaches g.successors [] a b := reaches_successors.2 (.single he)
  obtain ⟨z, hz, haz, hza⟩ := h.order _ _ _ hfin a ha hab
  have hza' : z = a := by
    rcases Relation.reflTransGen_iff_eq_or_transGen.1 (reaches_successors.1 haz) with h | h
    · exact h
    · exact absurd (h.trans_left (reaches_successors.1 hza)) (hc a)
  subst hza'
  rcases List.mem_cons.1 hz with rfl | hz
  · exact absurd (.single he) (hc z)
  · exact List.mem_reverse.1 hz

/-- What one of the walks from some roots finds: all that its root leads to, but for what has been
seen before. -/
structure IsPart (g : Graph) (roots part before : List String) : Prop where
  root : ∃ front n back, roots = front ++ n :: back ∧ (∀ r ∈ front, r ∈ before)
    ∧ ∀ a ∈ part, g.Leads n a
  nodup : part.Nodup
  fresh : ∀ a ∈ part, a ∉ before
  kept : ∀ a ∈ before, ∀ b, g.Leads a b → b ∈ before
  closed : ∀ a ∈ part, ∀ b, g.Leads a b → b ∈ part ∨ b ∈ before

theorem leads_mem_of_closed {seen : List String}
    (hs : ∀ a ∈ seen, ∀ b, g.Edge a b → b ∈ seen) {a b : String} (ha : a ∈ seen)
    (h : g.Leads a b) : b ∈ seen :=
  (reaches_successors.2 h).mem_of_closed (fun a ha b hb => .inl (hs a ha b (mem_successors.1 hb))) ha

theorem parts_isPart (hg : g.Closed) : ∀ (roots : List String) (w : Walk) (done : List String),
    (∀ r ∈ roots, r ∈ g.nodes) → (∀ r ∈ done, r ∈ w.discovered) →
    (∀ a ∈ w.discovered, ∀ b, g.Edge a b → b ∈ w.discovered) →
    (∀ part ∈ g.parts g.successors w roots, ∃ before, g.IsPart (done ++ roots) part before)
      ∧ ∀ r ∈ roots, r ∈ w.discovered ∨ ∃ part ∈ g.parts g.successors w roots, r ∈ part
  | [], _, _, _, _, _ => by simp [parts]
  | n :: r, w, done, hr, hdone, hw => by
    obtain ⟨found, fin, h⟩ := exists_explored g hg.successors w [n]
      (by simpa using hr n (by simp))
    have hpart : (g.walk g.successors w [n]).discovered.drop w.discovered.length = found := by
      rw [h.discovered, List.drop_left]
    have hclosed : ∀ a ∈ w.discovered ++ found, ∀ b, g.Edge a b → b ∈ w.discovered ++ found := by
      intro a ha b he
      rcases List.mem_append.1 ha with ha | ha
      · exact List.mem_append_left _ (hw a ha b he)
      · rcases h.closed a ha b (mem_successors.2 he) with hb | hb <;> simp [hb]
    have hdone' : ∀ x ∈ done ++ [n], x ∈ w.discovered ++ found := by
      intro x hx
      rcases List.mem_append.1 hx with hx | hx
      · exact List.mem_append_left _ (hdone x hx)
      · rw [List.mem_singleton] at hx
        subst hx
        rcases h.visited x (by simp) with hx | hx <;> simp [hx]
    obtain ⟨hparts, hcover⟩ := parts_isPart hg r (g.walk g.successors w [n]) (done ++ [n])
      (fun x hx => hr x (List.mem_cons_of_mem _ hx))
      (by rw [h.discovered]; exact hdone') (by rw [h.discovered]; exact hclosed)
    simp only [parts, hpart]
    refine ⟨fun part hp => ?_, fun x hx => ?_⟩
    · rcases List.mem_cons.1 hp with rfl | hp
      · refine ⟨w.discovered, ⟨done, n, r, rfl, hdone, fun a ha => ?_⟩, h.nodup, h.fresh, ?_, ?_⟩
        · obtain ⟨m, hm, -, hma⟩ := h.reached a ha
          rw [List.mem_singleton.1 hm] at hma
          have hma' : Reaches g.successors ([] ++ w.discovered) n a := hma
          exact reaches_successors.1 hma'.mono
        · exact fun a ha b hab => leads_mem_of_closed hw ha hab
        · intro a ha b hab
          have hb := leads_mem_of_closed hclosed (List.mem_append_right _ ha) hab
          exact (List.mem_append.1 hb).symm
      · simpa [List.append_assoc] using hparts part hp
    · rcases List.mem_cons.1 hx with rfl | hx
      · rcases h.visited x (by simp) with hx | hx
        · exact .inr ⟨found, by simp, hx⟩
        · exact .inl hx
      · rcases hcover x hx with hx | ⟨part, hp, hx⟩
        · rw [h.discovered] at hx
          rcases List.mem_append.1 hx with hx | hx
          · exact .inl hx
          · exact .inr ⟨found, by simp, hx⟩
        · exact .inr ⟨part, List.mem_cons_of_mem _ hp, hx⟩

/-- The components are the parts in an order of all nodes, in which nothing stands before a node
that it leads to but what is on a cycle with it or stands after such a node. -/
theorem exists_order_components (hg : g.Closed) : ∃ order : List String,
    (∀ part ∈ g.components, ∃ before, g.IsPart order part before)
      ∧ (∀ a ∈ g.nodes, ∃ part ∈ g.components, a ∈ part)
      ∧ ∀ front n back, order = front ++ n :: back → n ∈ g.nodes ∧
        ∀ x, g.Leads n x → ∃ z ∈ n :: front, g.Leads z x ∧ g.Leads x z := by
  obtain ⟨found, fin, h, hfound⟩ := exists_explored_nodes hg.predecessors
  have hfin : (g.walk g.predecessors ⟨[], []⟩ g.nodes).finished = fin := by rw [h.finished]; rfl
  have hmem : ∀ a, a ∈ fin.reverse ↔ a ∈ g.nodes := by
    intro a
    rw [List.mem_reverse, h.perm.mem_iff, hfound]
  have hroots : ∀ r ∈ fin.reverse, r ∈ g.nodes := fun r hr => (hmem r).1 hr
  obtain ⟨hparts, hcover⟩ := parts_isPart hg fin.reverse ⟨[], []⟩ [] hroots (by simp) (by simp)
  have hcomponents : g.components = g.parts g.successors ⟨[], []⟩ fin.reverse := by
    rw [components, hfin]
  rw [hcomponents]
  refine ⟨fin.reverse, hparts, fun a ha => ?_, fun front n back hsplit => ?_⟩
  · exact (hcover a ((hmem a).2 ha)).resolve_left (by simp)
  · have hn : n ∈ g.nodes := hroots n (by simp [hsplit])
    refine ⟨hn, fun x hnx => ?_⟩
    have hsplit' : fin = back.reverse ++ n :: front.reverse := by
      rw [← List.reverse_reverse fin, hsplit]
      simp
    have hx : x ∈ found := (hfound x).2 (hg.leads hn hnx)
    obtain ⟨z, hz, hxz, hzx⟩ := h.order _ _ _ hsplit' x hx (reaches_predecessors.2 hnx)
    refine ⟨z, ?_, reaches_predecessors.1 hxz, reaches_predecessors.1 hzx⟩
    simpa using hz

/-- The nodes of a component are on common cycles. -/
theorem leads_of_mem_component (hg : g.Closed) {part : List String} (hp : part ∈ g.components)
    {a b : String} (ha : a ∈ part) (hb : b ∈ part) : g.Leads a b := by
  obtain ⟨order, hparts, -, horder⟩ := exists_order_components hg
  obtain ⟨before, hpart⟩ := hparts part hp
  obtain ⟨front, n, back, hsplit, hfront, hlead⟩ := hpart.root
  obtain ⟨z, hz, hza, haz⟩ := (horder front n back hsplit).2 a (hlead a ha)
  rcases List.mem_cons.1 hz with rfl | hz
  · exact haz.trans (hlead b hb)
  · -- What is seen before cannot be left, and `z` leads to `a`.
    exact absurd (hpart.kept z (hfront z hz) a hza) (hpart.fresh a ha)

/-- Nodes on a common cycle are in one component. -/
theorem exists_component (hg : g.Closed) {a b : String} (ha : a ∈ g.nodes) (hab : g.Leads a b)
    (hba : g.Leads b a) : ∃ part ∈ g.components, a ∈ part ∧ b ∈ part := by
  obtain ⟨order, hparts, hcover, -⟩ := exists_order_components hg
  obtain ⟨part, hp, hap⟩ := hcover a ha
  obtain ⟨before, hpart⟩ := hparts part hp
  refine ⟨part, hp, hap, ?_⟩
  rcases hpart.closed a hap b hab with hb | hb
  · exact hb
  · exact absurd (hpart.kept b hb a hba) (hpart.fresh a hap)

theorem nodup_component (hg : g.Closed) {part : List String} (hp : part ∈ g.components) :
    part.Nodup := by
  obtain ⟨order, hparts, -⟩ := exists_order_components hg
  obtain ⟨before, hpart⟩ := hparts part hp
  exact hpart.nodup

theorem transGen_of_leads {a b : String} (hne : a ≠ b) (hab : g.Leads a b) (hba : g.Leads b a) :
    Relation.TransGen g.Edge a a := by
  rcases Relation.reflTransGen_iff_eq_or_transGen.1 hab with h | h
  · exact absurd h.symm hne
  · exact h.trans_left hba

theorem isSome_cycle?_iff (hg : g.Closed) :
    g.cycle?.isSome ↔ ∃ a b, a ≠ b ∧ g.Leads a b ∧ g.Leads b a := by
  simp only [cycle?, List.find?_isSome, decide_eq_true_eq]
  constructor
  · rintro ⟨part, hp, hlen⟩
    have hnodup := nodup_component hg hp
    rcases part with _ | ⟨a, _ | ⟨b, r⟩⟩
    · simp at hlen
    · simp at hlen
    · have hne : a ≠ b := fun h => by simp [h] at hnodup
      exact ⟨a, b, hne, leads_of_mem_component hg hp (by simp) (by simp),
        leads_of_mem_component hg hp (by simp) (by simp)⟩
  · rintro ⟨a, b, hne, hab, hba⟩
    have ha : a ∈ g.nodes := by
      obtain ⟨c, hac, -⟩ := Relation.TransGen.head'_iff.1 (transGen_of_leads hne hab hba)
      exact (hg a c hac).1
    obtain ⟨part, hp, hap, hbp⟩ := exists_component hg ha hab hba
    refine ⟨part, hp, ?_⟩
    rcases part with _ | ⟨x, _ | ⟨y, r⟩⟩
    · simp at hap
    · rw [List.mem_singleton] at hap hbp
      exact absurd (hap.trans hbp.symm) hne
    · simp

theorem isSome_loop?_iff (hg : g.Closed) : g.loop?.isSome ↔ ∃ n, g.Edge n n := by
  obtain ⟨found, fin, h, hfound⟩ := exists_explored_nodes hg.successors
  have hd : (g.walk g.successors ⟨[], []⟩ g.nodes).discovered = found := by
    rw [h.discovered]; rfl
  simp only [loop?, hd, List.find?_isSome, decide_eq_true_eq]
  constructor
  · rintro ⟨n, -, hn⟩
    exact ⟨n, hn⟩
  · rintro ⟨n, hn⟩
    exact ⟨n, (hfound n).2 (hg n n hn).1, hn⟩

/-- The two looks for a cycle miss none and see no other. -/
theorem cyclic_iff (hg : g.Closed) :
    (g.cycle?.isSome ∨ g.loop?.isSome) ↔ ∃ n, Relation.TransGen g.Edge n n := by
  rw [isSome_cycle?_iff hg, isSome_loop?_iff hg]
  constructor
  · rintro (⟨a, b, hne, hab, hba⟩ | ⟨n, hn⟩)
    · exact ⟨a, transGen_of_leads hne hab hba⟩
    · exact ⟨n, .single hn⟩
  · rintro ⟨n, hn⟩
    obtain ⟨b, hnb, hbn⟩ := Relation.TransGen.head'_iff.1 hn
    by_cases hne : n = b
    · subst hne
      exact .inr ⟨n, hnb⟩
    · exact .inl ⟨n, b, hne, .single hnb, hbn⟩

end Bindery.Graph
