/-!
# Tables by name

A table gives values to names and lists them in increasing order of the names, each name once.
Tables with the same entries are equal. `put` sets the value of a name; `mem_put_inv` says which
entries there are then, `find?_insert` what is found. A `NameSet` is a set of names, listed
in increasing order.
-/

namespace Bindery

theorem lt_of_not_lt_of_ne {a b : String} (h : ¬ a < b) (hne : a ≠ b) : b < a := by
  apply String.not_le.1
  intro hle
  exact hne (String.le_antisymm hle (String.not_lt.1 h))

namespace Table

variable {α : Type}

/-- Sets the value of a name in a list of entries in increasing order. -/
def put (key : String) (value : α) : List (String × α) → List (String × α)
  | [] => [(key, value)]
  | (k, v) :: r =>
    if key < k then (key, value) :: (k, v) :: r
    else if key = k then (key, value) :: r
    else (k, v) :: put key value r

/-- The entries have increasing names. -/
def Increasing (entries : List (String × α)) : Prop := (entries.map (·.1)).Pairwise (· < ·)

theorem mem_keys_put {key k : String} {value : α} {entries : List (String × α)} :
    k ∈ (put key value entries).map (·.1) ↔ k = key ∨ k ∈ entries.map (·.1) := by
  induction entries with
  | nil => simp [put]
  | cons e r ih =>
    obtain ⟨k', v⟩ := e
    unfold put
    split
    · simp
    · split
      · rename_i h; subst h; simp
      · simp only [List.map_cons, List.mem_cons, ih]
        constructor
        · rintro (h | h | h) <;> simp [h]
        · rintro (h | h | h) <;> simp [h]

theorem mem_put_inv {key : String} {value : α} {e : String × α} :
    ∀ {entries : List (String × α)}, e ∈ put key value entries → e = (key, value) ∨ e ∈ entries
  | [], h => .inl (List.mem_singleton.1 h)
  | (k, v) :: r, h => by
    unfold put at h
    split at h
    · exact List.mem_cons.1 h
    · split at h
      · exact (List.mem_cons.1 h).imp_right (List.mem_cons_of_mem _)
      · rcases List.mem_cons.1 h with rfl | h
        · exact .inr List.mem_cons_self
        · exact (mem_put_inv h).imp_right (List.mem_cons_of_mem _)

theorem increasing_put (key : String) (value : α) {entries : List (String × α)}
    (h : Increasing entries) : Increasing (put key value entries) := by
  unfold Increasing at *
  induction entries with
  | nil => simp [put]
  | cons e r ih =>
    obtain ⟨k, v⟩ := e
    simp only [List.map_cons, List.pairwise_cons] at h
    unfold put
    split
    · rename_i hlt
      simp only [List.map_cons, List.pairwise_cons, List.mem_cons]
      refine ⟨?_, h⟩
      rintro a (rfl | ha)
      · exact hlt
      · exact String.lt_trans hlt (h.1 a ha)
    · split
      · rename_i heq
        subst heq
        simpa using h
      · rename_i hlt hne
        simp only [List.map_cons, List.pairwise_cons]
        refine ⟨fun a ha => ?_, ih h.2⟩
        rcases mem_keys_put.1 ha with rfl | ha
        · exact lt_of_not_lt_of_ne hlt hne
        · exact h.1 a ha

theorem put_append {key : String} {value : α} : ∀ {entries : List (String × α)},
    (∀ k ∈ entries.map (·.1), k < key) → put key value entries = entries ++ [(key, value)]
  | [], _ => rfl
  | (k, v) :: r, h => by
    have hk : k < key := h k (by simp)
    have hlt : ¬ key < k := fun hlt => String.lt_irrefl k (String.lt_trans hk hlt)
    have hne : key ≠ k := fun he => String.lt_irrefl k (he ▸ hk)
    rw [put, if_neg hlt, if_neg hne, put_append fun x hx => h x (List.mem_cons_of_mem _ hx)]
    rfl

/-- Entries that are put in increasing order follow one another. -/
theorem foldl_put : ∀ {more entries : List (String × α)}, Increasing (entries ++ more) →
    more.foldl (fun acc e => put e.1 e.2 acc) entries = entries ++ more
  | [], _, _ => by simp
  | (k, v) :: r, entries, h => by
    have hput : put k v entries = entries ++ [(k, v)] := by
      refine put_append fun x hx => ?_
      unfold Increasing at h
      rw [List.map_append, List.pairwise_append] at h
      exact h.2.2 x hx k (by simp)
    have hrest : Increasing (put k v entries ++ r) := by
      rw [hput, List.append_assoc]
      exact h
    rw [List.foldl_cons, foldl_put hrest, hput, List.append_assoc]
    rfl

end Table

/-- Values by name, in increasing order of the names. -/
structure Table (α : Type) where
  entries : List (String × α)
  increasing : Table.Increasing entries

namespace Table

variable {α β : Type}

theorem ext {a b : Table α} (h : a.entries = b.entries) : a = b := by
  cases a; cases b; cases h; rfl

instance [DecidableEq α] : DecidableEq (Table α) := fun a b =>
  decidable_of_iff (a.entries = b.entries) ⟨ext, fun h => h ▸ rfl⟩

def empty : Table α := ⟨[], by simp [Increasing]⟩

instance : Inhabited (Table α) := ⟨empty⟩

def insert (t : Table α) (key : String) (value : α) : Table α :=
  ⟨put key value t.entries, increasing_put key value t.increasing⟩

/-- The table of these entries; of entries with one name the last counts. -/
def ofList (entries : List (String × α)) : Table α :=
  entries.foldl (fun t e => t.insert e.1 e.2) empty

def find? (t : Table α) (key : String) : Option α :=
  (t.entries.find? (·.1 = key)).map (·.2)

def keys (t : Table α) : List String := t.entries.map (·.1)

def size (t : Table α) : Nat := t.entries.length

theorem find?_put (key k : String) (value : α) (entries : List (String × α)) :
    ((put key value entries).find? (·.1 = k)).map (·.2)
      = if k = key then some value else (entries.find? (·.1 = k)).map (·.2) := by
  induction entries with
  | nil =>
    by_cases h : k = key
    · simp [put, h]
    · simp [put, h, Ne.symm h]
  | cons e r ih =>
    obtain ⟨k', v⟩ := e
    unfold put
    split
    · by_cases h : k = key
      · simp [h]
      · simp [h, Ne.symm h, List.find?_cons]
    · split
      · rename_i heq
        subst heq
        by_cases h : k = key
        · simp [h]
        · simp [h, Ne.symm h]
      · rename_i hne
        by_cases h : k' = k
        · subst h
          simp [Ne.symm hne]
        · simp only [List.find?_cons, h, decide_false, ih]

theorem isSome_find? (t : Table α) (key : String) :
    (t.find? key).isSome = true ↔ key ∈ t.keys := by
  simp [find?, keys]

@[simp] theorem find?_insert (t : Table α) (key k : String) (value : α) :
    (t.insert key value).find? k = if k = key then some value else t.find? k :=
  find?_put key k value t.entries

end Table

/-- A set of names, listed in increasing order. -/
structure NameSet where
  toList : List String
  increasing : toList.Pairwise (· < ·)

namespace NameSet

theorem ext {a b : NameSet} (h : a.toList = b.toList) : a = b := by
  cases a; cases b; cases h; rfl

instance : DecidableEq NameSet := fun a b =>
  decidable_of_iff (a.toList = b.toList) ⟨ext, fun h => h ▸ rfl⟩

def empty : NameSet := ⟨[], List.Pairwise.nil⟩

instance : Inhabited NameSet := ⟨empty⟩

instance : Membership String NameSet := ⟨fun s n => n ∈ s.toList⟩

/-- The set of the names in a list. -/
def ofList (names : List String) : NameSet :=
  let t := Table.ofList (names.map fun n => (n, ()))
  ⟨t.keys, t.increasing⟩

def union (s : NameSet) (names : List String) : NameSet := ofList (s.toList ++ names)

end NameSet

end Bindery
