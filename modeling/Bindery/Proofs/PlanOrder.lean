import Bindery.Plan.Basic
import Bindery.Proofs.GraphOrder

/-!
# Orders of plans

A plan holds each listed module as often as it is listed, and whatever has the name of a required
module before whatever has the name of a module that requires it: `ofSources_order`. There is a
plan unless names require one another in a cycle, and a cycle is reported as one:
`ofSources_cycle_iff`.
-/

namespace Bindery.Plan

variable {st : Storage} {s : SearchPath} {modules : List Record}

/-- Some listed source of the name `n` has a requirement whose answer is a module of the project,
and the name `d` of that module is listed. -/
def Requires (st : Storage) (s : SearchPath) (modules : List Record) (d n : String) : Prop :=
  ∃ m ∈ modules, m.dotted = n ∧ m.isSource = true ∧ ∃ v source r answer,
    m.volume = some v ∧ st.readText v m.physical = .ok source ∧ r ∈ Requirement.parse source
      ∧ nearest? m ((answers st s r).1.filter (·.logical ≠ m.logical)) = some answer
      ∧ answer.isExternal = false ∧ answer.dotted = d ∧ d ∈ modules.map (·.dotted)

/-! ## What the sources require -/

theorem target?_eq_here {m : Record} {r : Requirement} {d : String} :
    target? st s m r = some (.here d) ↔
      ∃ answer, nearest? m ((answers st s r).1.filter (·.logical ≠ m.logical)) = some answer
        ∧ answer.isExternal = false ∧ answer.dotted = d := by
  simp only [target?, Option.map_eq_some_iff]
  refine exists_congr fun a => and_congr_right fun _ => ?_
  by_cases ha : a.isExternal = true <;> simp [ha]

theorem here_mem_targets {m : Record} {source d : String} :
    .here d ∈ targets st s m source ↔
      ∃ r ∈ Requirement.parse source, target? st s m r = some (.here d) := by
  simp only [targets, List.mem_filterMap]

theorem mem_requirements (m : Record) (ts : List Target) :
    ∀ {modules : List Record} {required : List (Record × List Target)},
      requirements st s modules = .ok required →
      ((m, ts) ∈ required ↔ m ∈ modules ∧ m.isSource = true ∧ ∃ v source,
        m.volume = some v ∧ st.readText v m.physical = .ok source ∧ ts = targets st s m source)
  | [], _, h => by
    cases h
    simp
  | x :: r, required, h => by
    simp only [requirements] at h
    split at h
    · rename_i v hv
      split at h
      · rename_i hx
        cases hr : st.readText v x.physical with
        | error e => rw [hr] at h; cases h
        | ok source =>
          rw [hr] at h
          cases hrest : requirements st s r with
          | error e => rw [hrest] at h; cases h
          | ok rest =>
            rw [hrest] at h
            cases h
            have ih := mem_requirements m ts hrest
            simp only [List.mem_cons, Prod.mk.injEq, ih]
            constructor
            · rintro (⟨rfl, rfl⟩ | ⟨hm, h⟩)
              · exact ⟨.inl rfl, hx, v, source, hv, hr, rfl⟩
              · exact ⟨.inr hm, h⟩
            · rintro ⟨rfl | hm, h⟩
              · obtain ⟨-, v', source', hv', hr', rfl⟩ := h
                cases hv.symm.trans hv'
                cases hr.symm.trans hr'
                exact .inl ⟨rfl, rfl⟩
              · exact .inr ⟨hm, h⟩
      · rename_i hx
        rw [mem_requirements m ts h, List.mem_cons]
        refine and_congr_left fun hm => ⟨.inr, fun h => h.resolve_left ?_⟩
        rintro rfl
        exact hx hm.1
    · rename_i hv
      rw [mem_requirements m ts h, List.mem_cons]
      refine and_congr_left fun hm => ⟨.inr, fun h => h.resolve_left ?_⟩
      rintro rfl
      obtain ⟨-, v, -, hv', -⟩ := hm
      rw [hv] at hv'
      cases hv'

/-- Sources that can be read have requirements. -/
theorem exists_requirements : ∀ {modules : List Record},
    (∀ m ∈ modules, m.isSource = true → ∀ v, m.volume = some v →
      ∃ content, st.read v m.physical = .ok content) →
    ∃ required, requirements st s modules = .ok required
  | [], _ => ⟨[], rfl⟩
  | m :: r, h => by
    obtain ⟨rest, hrest⟩ := exists_requirements fun x hx => h x (List.mem_cons_of_mem _ hx)
    simp only [requirements]
    split
    · rename_i v hv
      split
      · rename_i hm
        obtain ⟨content, hc⟩ := h m (by simp) hm v hv
        have hr : st.readText v m.physical = .ok (Text.ofBytes content) := by
          rw [Storage.readText, hc]; rfl
        rw [hr, hrest]
        exact ⟨_, rfl⟩
      · exact ⟨rest, hrest⟩
    · exact ⟨rest, hrest⟩

/-! ## The graph of the modules -/

theorem addEdge_nodes (g : Graph) (a b : String) : (g.addEdge a b).nodes = g.nodes := by
  unfold Graph.addEdge
  split <;> rfl

theorem addEdge_edge {g : Graph} {a b x y : String} :
    (g.addEdge a b).Edge x y ↔ g.Edge x y ∨ (x = a ∧ y = b) := by
  unfold Graph.addEdge Graph.Edge
  split
  · rename_i h
    refine ⟨.inl, ?_⟩
    rintro (h' | ⟨rfl, rfl⟩)
    · exact h'
    · exact h
  · simp

theorem foldl_addEdge {n : String} : ∀ (names : List String) (g : Graph),
    (names.foldl (·.addEdge · n) g).nodes = g.nodes
      ∧ ∀ x y, (names.foldl (·.addEdge · n) g).Edge x y ↔ g.Edge x y ∨ (x ∈ names ∧ y = n)
  | [], g => by simp
  | a :: r, g => by
    obtain ⟨hn, he⟩ := foldl_addEdge r (g.addEdge a n)
    refine ⟨hn.trans (addEdge_nodes g a n), fun x y => ?_⟩
    rw [List.foldl_cons, he x y, addEdge_edge, List.mem_cons]
    tauto

theorem mem_filterMap_local {ts : List Target} {d : String} :
    d ∈ ts.filterMap (·.local?) ↔ .here d ∈ ts := by
  rw [List.mem_filterMap]
  constructor
  · rintro ⟨t, ht, h⟩
    cases t <;> cases h
    exact ht
  · exact fun h => ⟨.here d, h, rfl⟩

/-- The edges that are added for what each of some modules requires. -/
theorem foldl_targets {step : Graph → Record × List Target → Graph}
    (hstep : ∀ g m ts, step g (m, ts) =
      ((ts.filterMap (·.local?)).filter (· ∈ (modules.map (·.dotted)).eraseDups)).foldl
        (·.addEdge · m.dotted) g) :
    ∀ (required : List (Record × List Target)) (g : Graph),
      (required.foldl step g).nodes = g.nodes
        ∧ ∀ d n, (required.foldl step g).Edge d n ↔ g.Edge d n ∨ ∃ m ts, (m, ts) ∈ required
          ∧ m.dotted = n ∧ .here d ∈ ts ∧ d ∈ modules.map (·.dotted)
  | [], g => by simp
  | (m, ts) :: r, g => by
    obtain ⟨hn, he⟩ := foldl_addEdge (n := m.dotted)
      ((ts.filterMap (·.local?)).filter (· ∈ (modules.map (·.dotted)).eraseDups)) g
    rw [← hstep] at hn he
    obtain ⟨hn', he'⟩ := foldl_targets hstep r (step g (m, ts))
    refine ⟨hn'.trans hn, fun d n => ?_⟩
    rw [List.foldl_cons, he' d n, he d n, List.mem_filter, mem_filterMap_local, decide_eq_true_eq,
      List.mem_eraseDups]
    constructor
    · rintro ((h | ⟨⟨h, hd⟩, rfl⟩) | ⟨m', ts', h, hrest⟩)
      · exact .inl h
      · exact .inr ⟨m, ts, by simp, rfl, h, hd⟩
      · exact .inr ⟨m', ts', by simp [h], hrest⟩
    · rintro (h | ⟨m', ts', h, rfl, hrest⟩)
      · exact .inl (.inl h)
      · rcases List.mem_cons.1 h with h | h
        · cases h
          exact .inl (.inr ⟨hrest, rfl⟩)
        · exact .inr ⟨m', ts', h, rfl, hrest⟩

theorem graph_spec (modules : List Record) (required : List (Record × List Target)) :
    (graph modules required).nodes = (modules.map (·.dotted)).eraseDups
      ∧ ∀ d n, (graph modules required).Edge d n ↔ ∃ m ts, (m, ts) ∈ required ∧ m.dotted = n
        ∧ .here d ∈ ts ∧ d ∈ modules.map (·.dotted) := by
  refine ⟨(foldl_targets (fun _ _ _ => rfl) required _).1, fun d n => ?_⟩
  refine ((foldl_targets (fun _ _ _ => rfl) required _).2 d n).trans ?_
  simp [Graph.Edge]

theorem graph_edge {required : List (Record × List Target)}
    (h : requirements st s modules = .ok required) {d n : String} :
    (graph modules required).Edge d n ↔ Requires st s modules d n := by
  rw [(graph_spec modules required).2]
  constructor
  · rintro ⟨m, ts, hmem, hn, hd, hlisted⟩
    obtain ⟨hm, hs, v, source, hv, hr, rfl⟩ := (mem_requirements _ _ h).1 hmem
    obtain ⟨r, hparse, ht⟩ := here_mem_targets.1 hd
    obtain ⟨answer, hnear, hext, hdot⟩ := target?_eq_here.1 ht
    exact ⟨m, hm, hn, hs, v, source, r, answer, hv, hr, hparse, hnear, hext, hdot, hlisted⟩
  · rintro ⟨m, hm, hn, hs, v, source, r, answer, hv, hr, hparse, hnear, hext, hdot, hlisted⟩
    refine ⟨m, targets st s m source, ?_, hn, ?_, hlisted⟩
    · exact (mem_requirements _ _ h).2 ⟨hm, hs, v, source, hv, hr, rfl⟩
    · exact here_mem_targets.2 ⟨r, hparse, target?_eq_here.2 ⟨answer, hnear, hext, hdot⟩⟩

theorem graph_closed {required : List (Record × List Target)}
    (h : requirements st s modules = .ok required) : (graph modules required).Closed := by
  intro d n he
  obtain ⟨m, ts, hmem, rfl, -, hd⟩ := ((graph_spec modules required).2 d n).1 he
  have hm : m ∈ modules := ((mem_requirements _ _ h).1 hmem).1
  rw [(graph_spec modules required).1, List.mem_eraseDups, List.mem_eraseDups]
  exact ⟨hd, List.mem_map_of_mem hm⟩

theorem nodup_eraseDups : ∀ names : List String, names.eraseDups.Nodup
  | [] => by simp
  | n :: r => by
    rw [List.eraseDups_cons, List.nodup_cons]
    refine ⟨?_, nodup_eraseDups _⟩
    rw [List.mem_eraseDups, List.mem_filter]
    simp
termination_by names => names.length
decreasing_by exact Nat.lt_succ_of_le (List.length_filter_le _ _)

/-- The modules of some names, name by name. -/
def grouped (modules : List Record) (names : List String) : List Record :=
  names.flatMap fun n => modules.filter (·.dotted = n)

theorem mem_grouped {names : List String} {m : Record} (h : m ∈ grouped modules names) :
    m.dotted ∈ names := by
  obtain ⟨n, hn, hm⟩ := List.mem_flatMap.1 h
  have : m.dotted = n := by simpa using (List.mem_filter.1 hm).2
  exact this ▸ hn

theorem grouped_perm (modules : List Record) : ∀ {names : List String}, names.Nodup →
    (grouped modules names).Perm (modules.filter (·.dotted ∈ names))
  | [], _ => by simp [grouped]
  | n :: r, h => by
    obtain ⟨hn, hr⟩ := List.nodup_cons.1 h
    have hfirst : modules.filter (·.dotted = n) =
        (modules.filter (·.dotted ∈ n :: r)).filter (·.dotted = n) := by
      rw [List.filter_filter]
      refine List.filter_congr fun m _ => ?_
      by_cases hm : m.dotted = n <;> simp [hm]
    have hrest : modules.filter (·.dotted ∈ r) =
        (modules.filter (·.dotted ∈ n :: r)).filter fun m => !decide (m.dotted = n) := by
      rw [List.filter_filter]
      refine List.filter_congr fun m _ => ?_
      by_cases hm : m.dotted = n
      · simp [hm, hn]
      · simp [hm]
    calc grouped modules (n :: r)
        = modules.filter (·.dotted = n) ++ grouped modules r := rfl
      _ |>.Perm (modules.filter (·.dotted = n) ++ modules.filter (·.dotted ∈ r)) :=
          (grouped_perm modules hr).append_left _
      _ |>.Perm (modules.filter (·.dotted ∈ n :: r)) := by
          rw [hfirst, hrest]
          exact List.filter_append_perm _ _

/-- A name before another keeps its modules before those of the other. -/
theorem grouped_lt {front back : List String} {n : String} (h : (front ++ n :: back).Nodup)
    {x y : Record} (hx : x.dotted ∈ front) (hy : y.dotted = n) {i j : Nat}
    (hi : (grouped modules (front ++ n :: back))[i]? = some x)
    (hj : (grouped modules (front ++ n :: back))[j]? = some y) : i < j := by
  have hsplit : grouped modules (front ++ n :: back) =
      grouped modules front ++ grouped modules (n :: back) := List.flatMap_append
  obtain ⟨-, -, hdisjoint⟩ := List.nodup_append.1 h
  rw [hsplit] at hi hj
  have hi' : i < (grouped modules front).length := by
    by_contra hlt
    rw [List.getElem?_append_right (by omega)] at hi
    have hmem := mem_grouped (List.mem_of_getElem? hi)
    exact hdisjoint _ hx _ hmem rfl
  have hj' : (grouped modules front).length ≤ j := by
    by_contra hlt
    rw [List.getElem?_append_left (by omega)] at hj
    have hmem := mem_grouped (List.mem_of_getElem? hj)
    exact hdisjoint _ hmem _ (by simp [hy]) rfl
  omega

theorem filter_grouped (p : Record → Bool) (names : List String) :
    (grouped modules names).filter p = grouped (modules.filter p) names := by
  simp only [grouped, List.filter_flatMap, List.filter_filter, Bool.and_comm]

theorem filter_dotted_grouped {d : String} : ∀ {names : List String}, names.Nodup →
    (grouped modules names).filter (·.dotted = d)
      = if d ∈ names then modules.filter (·.dotted = d) else []
  | [], _ => by simp [grouped]
  | n :: r, h => by
    obtain ⟨hn, hr⟩ := List.nodup_cons.1 h
    have hfirst : (modules.filter (·.dotted = n)).filter (·.dotted = d) =
        if d = n then modules.filter (·.dotted = d) else [] := by
      split_ifs with hd
      · rw [hd, List.filter_filter]
        simp
      · rw [List.filter_filter, List.filter_eq_nil_iff]
        rintro m - hm
        simp only [Bool.and_eq_true, decide_eq_true_eq] at hm
        exact hd (hm.1.symm.trans hm.2)
    have hcons : grouped modules (n :: r) = modules.filter (·.dotted = n) ++ grouped modules r := rfl
    rw [hcons, List.filter_append, hfirst, filter_dotted_grouped hr]
    by_cases hd : d = n
    · simp [hd, hn]
    · simp [hd]

/-- Before a module stand all those of the names before its name. -/
theorem filter_of_prefix_grouped {front back : List String} {d : String} {done : List Record}
    {m : Record} (h : (front ++ m.dotted :: back).Nodup) (hd : d ∈ front)
    (hp : done ++ [m] <+: grouped modules (front ++ m.dotted :: back)) :
    done.filter (·.dotted = d) = modules.filter (·.dotted = d) := by
  have hsplit : grouped modules (front ++ m.dotted :: back) =
      grouped modules front ++ grouped modules (m.dotted :: back) := List.flatMap_append
  obtain ⟨hfront, hback, hdisjoint⟩ := List.nodup_append.1 h
  rw [hsplit] at hp
  have hm : m ∉ grouped modules front :=
    fun hm => hdisjoint _ (mem_grouped hm) m.dotted (by simp) rfl
  rcases List.prefix_or_prefix_of_prefix hp (List.prefix_append _ _) with hshort | hlong
  · exact absurd (hshort.subset (by simp)) hm
  · rcases List.prefix_concat_iff.1 hlong with heq | ⟨rest, rfl⟩
    · rw [heq] at hm
      simp at hm
    · rw [List.append_assoc, List.prefix_append_right_inj] at hp
      have hrest : rest.filter (·.dotted = d) = [] := by
        rw [List.filter_eq_nil_iff]
        intro x hx hxd
        have hmem := mem_grouped (hp.subset (List.mem_append_left _ hx))
        exact hdisjoint d hd _ hmem (of_decide_eq_true hxd).symm
      rw [List.filter_append, hrest, List.append_nil, filter_dotted_grouped hfront, if_pos hd]

theorem orderOf_error_iff (modules : List Record) {g : Graph} (hg : g.Closed) :
    (∃ c, orderOf modules g = .error (.cycle c)) ↔ ∃ n, Relation.TransGen g.Edge n n := by
  rw [← Graph.cyclic_iff hg]
  unfold orderOf
  split <;> simp [*]

theorem orderOf_ok_iff (modules : List Record) {g : Graph} (hg : g.Closed) {order : List Record} :
    orderOf modules g = .ok order ↔
      (¬ ∃ n, Relation.TransGen g.Edge n n) ∧ order = grouped modules g.sorted := by
  rw [← Graph.cyclic_iff hg]
  unfold orderOf grouped
  split
  · simp [*]
  · simp [*]
  · simp only [*, Option.isSome_none, Bool.false_eq_true, or_self, not_false_eq_true, true_and,
      Except.ok.injEq]
    exact eq_comm

theorem ofSources_eq {required : List (Record × List Target)}
    (h : requirements st s modules = .ok required) :
    ofSources st s modules = (orderOf modules (graph modules required)).map fun order =>
      ⟨order, .ofList (required.flatMap fun r => r.2.flatMap (·.packages)),
        depsTable required⟩ := by
  simp only [ofSources, h, bind, Except.bind]
  cases orderOf modules (graph modules required) <;> rfl

theorem edge_eq_requires {required : List (Record × List Target)}
    (h : requirements st s modules = .ok required) :
    (graph modules required).Edge = Requires st s modules := by
  funext d n
  exact propext (graph_edge h)

/-! ## Plans -/

/-- A plan for some modules is made of what its sources require. -/
structure MadeOf (st : Storage) (s : SearchPath) (modules : List Record) (plan : Plan)
    (required : List (Record × List Target)) : Prop where
  requirements : Plan.requirements st s modules = .ok required
  nodup : (graph modules required).sorted.Nodup
  mem_sorted : ∀ m ∈ modules, m.dotted ∈ (graph modules required).sorted
  acyclic : ∀ n, ¬ Relation.TransGen (graph modules required).Edge n n
  order : plan.order = grouped modules (graph modules required).sorted
  external : plan.external = .ofList (required.flatMap fun r => r.2.flatMap (·.packages))
  deps : plan.deps = depsTable required

theorem ofSources_inv {plan : Plan} (h : ofSources st s modules = .ok plan) :
    ∃ required, MadeOf st s modules plan required := by
  cases hr : requirements st s modules with
  | error e => rw [ofSources, hr] at h; cases h
  | ok required =>
    have hg := graph_closed hr
    have hnodup : (graph modules required).nodes.Nodup := by
      rw [(graph_spec modules required).1]
      exact nodup_eraseDups _
    rw [ofSources_eq hr] at h
    cases ho : orderOf modules (graph modules required) with
    | error e => rw [ho] at h; cases h
    | ok order =>
      rw [ho] at h
      cases h
      obtain ⟨hacyclic, rfl⟩ := (orderOf_ok_iff modules hg).1 ho
      have hsorted := Graph.perm_sorted hg hnodup
      refine ⟨required, hr, hsorted.nodup_iff.2 hnodup, fun m hm => ?_, not_exists.1 hacyclic, rfl,
        rfl, rfl⟩
      rw [hsorted.mem_iff, (graph_spec modules required).1, List.mem_eraseDups]
      exact List.mem_map_of_mem hm

theorem filter_dotted_order {plan : Plan} (h : ofSources st s modules = .ok plan) (n : String) :
    plan.order.filter (·.dotted = n) = modules.filter (·.dotted = n) := by
  obtain ⟨required, hmade⟩ := ofSources_inv h
  rw [hmade.order, filter_dotted_grouped hmade.nodup]
  split_ifs with hn
  · rfl
  · symm
    rw [List.filter_eq_nil_iff]
    intro m hm hd
    exact hn (of_decide_eq_true hd ▸ hmade.mem_sorted m hm)

theorem mem_order {plan : Plan} (h : ofSources st s modules = .ok plan) (m : Record) :
    m ∈ plan.order ↔ m ∈ modules := by
  have hm : ∀ l : List Record, m ∈ l ↔ m ∈ l.filter (·.dotted = m.dotted) := by
    intro l
    simp
  rw [hm plan.order, filter_dotted_order h, ← hm]

theorem order_perm {plan : Plan} (h : ofSources st s modules = .ok plan) :
    plan.order.Perm modules := by
  obtain ⟨required, hmade⟩ := ofSources_inv h
  have hall : modules.filter (·.dotted ∈ (graph modules required).sorted) = modules :=
    List.filter_eq_self.2 fun m hm => decide_eq_true (hmade.mem_sorted m hm)
  have hperm := grouped_perm modules hmade.nodup
  rwa [hall, ← hmade.order] at hperm

/-- Whoever goes through the sources of a plan in its order has been through all those of a
required name when it comes to one that requires it. -/
theorem filter_of_prefix_order {plan : Plan} (h : ofSources st s modules = .ok plan)
    {done : List Record} {m : Record} (hp : done ++ [m] <+: plan.order.filter (·.isSource))
    {d : String} (hd : Requires st s modules d m.dotted) :
    done.filter (·.dotted = d) = (modules.filter (·.isSource)).filter (·.dotted = d) := by
  obtain ⟨required, hmade⟩ := ofSources_inv h
  have he := (graph_edge hmade.requirements).2 hd
  have hn : m.dotted ∈ (graph modules required).sorted := by
    have hm : m ∈ plan.order := (List.mem_filter.1 (hp.subset (by simp))).1
    exact mem_grouped (hmade.order ▸ hm)
  obtain ⟨front, back, hsplit⟩ := List.append_of_mem hn
  have hfront : d ∈ front :=
    Graph.mem_of_sorted (graph_closed hmade.requirements) hmade.acyclic he hsplit
  rw [hmade.order, filter_grouped, hsplit] at hp
  exact filter_of_prefix_grouped (hsplit ▸ hmade.nodup) hfront hp

/-- A plan is in the order of what its modules require. -/
theorem ofSources_order {plan : Plan} (h : ofSources st s modules = .ok plan) :
    plan.order.Perm modules ∧ ∀ d n, Requires st s modules d n →
      ∀ (i j : Nat) (x y : Record), plan.order[i]? = some x → plan.order[j]? = some y →
        x.dotted = d → y.dotted = n → i < j := by
  refine ⟨order_perm h, fun d n hreq i j x y hi hj hx hy => ?_⟩
  obtain ⟨required, hmade⟩ := ofSources_inv h
  have he := (graph_edge hmade.requirements).2 hreq
  have hn : n ∈ (graph modules required).sorted :=
    hy ▸ hmade.mem_sorted y ((mem_order h y).1 (List.mem_of_getElem? hj))
  obtain ⟨front, back, hsplit⟩ := List.append_of_mem hn
  have hd : d ∈ front :=
    Graph.mem_of_sorted (graph_closed hmade.requirements) hmade.acyclic he hsplit
  have hnodup := hmade.nodup
  simp only [hmade.order, hsplit] at hi hj hnodup
  exact grouped_lt hnodup (hx ▸ hd) hy hi hj

/-- A volume with sources `A` and `B`. -/
def pairVolume : Volume := ⟨0, .memory 0⟩

def pairStorage (a b : String) : Storage :=
  ⟨[.ofList [("/A.v", a.toUTF8), ("/B.v", b.toUTF8)]], [], default, 1⟩

def pairPath : SearchPath := (SearchPath.new pairVolume).add ⟨pairVolume, [], "/", none⟩

def pairModules : List Record :=
  [⟨some pairVolume, ["A"], "/A.v", none⟩, ⟨some pairVolume, ["B"], "/B.v", none⟩]

def pairPlan : Plan := ⟨pairModules.reverse, .empty, .ofList [("A", ["B"])]⟩

theorem ofSources_order_pair :
    ofSources (pairStorage "Require B." "") pairPath pairModules = .ok pairPlan
      ∧ pairPlan.order.Perm pairModules
      ∧ Requires (pairStorage "Require B." "") pairPath pairModules "B" "A"
      ∧ ∀ (i j : Nat) (x y : Record), pairPlan.order[i]? = some x → pairPlan.order[j]? = some y →
        x.dotted = "B" → y.dotted = "A" → i < j := by
  have hplan : ofSources (pairStorage "Require B." "") pairPath pairModules = .ok pairPlan := rfl
  have hreq : Requires (pairStorage "Require B." "") pairPath pairModules "B" "A" :=
    ⟨⟨some pairVolume, ["A"], "/A.v", none⟩, by simp [pairModules], rfl, rfl, pairVolume,
      "Require B.", ⟨[], ["B"]⟩, ⟨some pairVolume, ["B"], "/B.v", none⟩, rfl, rfl,
      List.mem_singleton.2 rfl, rfl, rfl, rfl, List.mem_cons_of_mem _ (List.mem_singleton.2 rfl)⟩
  obtain ⟨hperm, horder⟩ := ofSources_order hplan
  exact ⟨hplan, hperm, hreq, horder "B" "A" hreq⟩

/-- Cycles of what is required, and only they, prevent a plan. -/
theorem ofSources_cycle_iff
    (h : ∀ m ∈ modules, m.isSource = true → ∀ v, m.volume = some v →
      ∃ content, st.read v m.physical = .ok content) :
    ((∃ c, ofSources st s modules = .error (.cycle c)) ↔
        ∃ n, Relation.TransGen (Requires st s modules) n n)
      ∧ ((∃ plan, ofSources st s modules = .ok plan) ↔
        ¬ ∃ n, Relation.TransGen (Requires st s modules) n n) := by
  obtain ⟨required, hr⟩ := exists_requirements (s := s) h
  have hg := graph_closed hr
  rw [← edge_eq_requires hr, ofSources_eq hr]
  constructor
  · rw [← orderOf_error_iff modules hg]
    cases orderOf modules (graph modules required) <;> simp [Except.map]
  · constructor
    · rintro ⟨plan, hp⟩
      cases ho : orderOf modules (graph modules required) with
      | error e => rw [ho] at hp; cases hp
      | ok order => exact ((orderOf_ok_iff modules hg).1 ho).1
    · intro hacyclic
      have ho := (orderOf_ok_iff modules hg).2 ⟨hacyclic, rfl⟩
      rw [ho]
      exact ⟨_, rfl⟩

theorem ofSources_cycle_iff_pair :
    ∃ n, Relation.TransGen
      (Requires (pairStorage "Require B." "Require A.") pairPath pairModules) n n := by
  have hread : ∀ m ∈ pairModules, m.isSource = true → ∀ v, m.volume = some v →
      ∃ content, (pairStorage "Require B." "Require A.").read v m.physical = .ok content := by
    intro m hm _ v hv
    simp only [pairModules, List.mem_cons, List.not_mem_nil, or_false] at hm
    rcases hm with rfl | rfl <;> cases hv <;> exact ⟨_, rfl⟩
  exact (ofSources_cycle_iff hread).1.1 ⟨.through ["A", "B"], rfl⟩

end Bindery.Plan
