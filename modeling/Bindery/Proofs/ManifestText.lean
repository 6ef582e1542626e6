import Bindery.Project.Manifest
import Bindery.Proofs.JsonValue
import Bindery.Text.Utf8

/-!
# Manifests survive their text

A manifest written in any layout is read as the manifest that it is, `parse_layout_text`, with no
list and an empty list told apart. Its text is one of JSON, and is read from its bytes too:
`layout_text_restores`.
-/

namespace Bindery

theorem Text.ofBytes_toUTF8 (s : String) : Text.ofBytes s.toUTF8 = s := by
  have hread : String.fromUTF8? s.toUTF8 = some s := dif_pos s.isValidUTF8
  rw [Text.ofBytes, hread]

namespace Table

variable {α : Type}

theorem entries_foldl_insert (more : List (String × α)) : ∀ t : Table α,
    (more.foldl (fun t e => t.insert e.1 e.2) t).entries
      = more.foldl (fun acc e => put e.1 e.2 acc) t.entries := by
  induction more with
  | nil => exact fun t => rfl
  | cons e r ih => exact fun t => ih (t.insert e.1 e.2)

theorem entries_ofList {entries : List (String × α)} (h : Increasing entries) :
    (ofList entries).entries = entries := by
  have hput : Increasing ([] ++ entries) := h
  rw [ofList, entries_foldl_insert, empty, foldl_put hput]
  rfl

/-- A table is the table of its entries. -/
theorem ofList_entries (t : Table α) : ofList t.entries = t :=
  ext (entries_ofList t.increasing)

end Table

namespace Manifest

open Json

theorem mapM_map_ok {α β γ : Type} (f : β → Except Fault γ) (w : α → β) (g : α → γ) :
    ∀ {xs : List α}, (∀ x ∈ xs, f (w x) = .ok (g x)) → (xs.map w).mapM f = .ok (xs.map g)
  | [], _ => rfl
  | x :: r, h => by
    have hr := mapM_map_ok f w g fun y hy => h y (List.mem_cons_of_mem _ hy)
    rw [List.map_cons, List.mapM_cons, h x (by simp), hr]
    rfl

theorem strings_ofStrings (texts : List String) :
    Raw.strings (ofStrings texts).raw = .ok texts := by
  have hmap : (texts.map fun s => Raw.str (glyphsOf s)).mapM Raw.string = .ok (texts.map id) :=
    mapM_map_ok Raw.string _ id fun s _ => readString_glyphsOf s
  have hraw : (texts.map Json.str).map raw = texts.map fun s => Raw.str (glyphsOf s) := by
    rw [List.map_map]
    rfl
  rw [ofStrings, raw, rawItems_eq_map, hraw, Raw.strings, hmap, List.map_id]

theorem entries_obj (fields : List (String × Json)) :
    Raw.entries (Json.obj fields).raw = .ok (fields.map fun f => (f.1, f.2.raw)) := by
  rw [raw, rawFields_eq_map]
  refine mapM_map_ok _ _ _ fun f _ => ?_
  simp only [readString_glyphsOf]
  rfl

theorem optional_ofStrings (texts : List String) :
    Raw.optional Raw.strings (some (ofStrings texts).raw) = .ok (some texts) := by
  have hraw : (ofStrings texts).raw = .arr (rawItems (texts.map .str)) := by rw [ofStrings, raw]
  have hstrings := strings_ofStrings texts
  rw [hraw] at hstrings ⊢
  rw [Raw.optional, hstrings]
  · rfl
  · simp

theorem moduleOfRaw_moduleToJson (deps : Option (List String)) :
    moduleOfRaw (moduleToJson deps).raw = .ok deps := by
  rcases deps with _ | deps
  · rfl
  · have hkey : readString (glyphsOf "deps") = .ok "deps" := readString_glyphsOf _
    have hslot : ["deps"].idxOf? "deps" = some 0 := rfl
    have hdeps := optional_ofStrings deps
    simp only [moduleOfRaw, moduleToJson, raw, rawFields, Raw.record, Raw.place, hkey, hslot,
      bind, Except.bind, List.map_cons, List.map_nil, List.getElem?_cons_zero, List.set_cons_zero,
      hdeps]

theorem modulesOfRaw_obj (t : Table (Option (List String))) :
    modulesOfRaw (Json.obj (t.entries.map fun e => (e.1, moduleToJson e.2))).raw = .ok t := by
  have hmodules : ((t.entries.map fun e => (e.1, (moduleToJson e.2).raw)).mapM fun e =>
      (do return (e.1, ← moduleOfRaw e.2) : Except Fault (String × Option (List String)))) =
        .ok (t.entries.map id) := by
    refine mapM_map_ok _ _ id fun e _ => ?_
    simp only [moduleOfRaw_moduleToJson]
    rfl
  rw [modulesOfRaw, entries_obj, List.map_map]
  simp only [Function.comp_def, bind, Except.bind] at hmodules ⊢
  rw [hmodules]
  simp only [List.map_id, Table.ofList_entries]
  rfl

theorem legible_module {depth : Nat} (h : 2 ≤ depth) : ∀ deps : Option (List String),
    Legible depth (moduleToJson deps)
  | none => ⟨by omega, .nil, trivial⟩
  | some deps => ⟨by omega, by simp [Table.Increasing], legible_ofStrings (by omega) deps, trivial⟩

theorem legible_modules {depth : Nat} (h : 2 ≤ depth) :
    ∀ entries : List (String × Option (List String)),
      LegibleFields depth (entries.map fun e => (e.1, moduleToJson e.2))
  | [] => trivial
  | (_, deps) :: r => ⟨legible_module h deps, legible_modules h r⟩

theorem legible_toJson (m : Manifest) : Legible nestingLimit m.toJson := by
  have hdepth : nestingLimit ≠ 0 ∧ nestingLimit - 1 ≠ 0 ∧ 2 ≤ nestingLimit - 1 - 1 := by decide
  have hdeps := legible_ofStrings hdepth.2.1 m.deps
  have hmodules : Legible (nestingLimit - 1)
      (.obj (m.modules.entries.map fun e => (e.1, moduleToJson e.2))) := by
    refine ⟨hdepth.2.1, ?_, legible_modules hdepth.2.2 _⟩
    rw [Table.Increasing, List.map_map]
    exact m.modules.increasing
  refine ⟨hdepth.1, ?_, ?_⟩
  · rcases ha : m.archive with _ | a
    · show ["deps", "modules", "name"].Pairwise (· < ·)
      decide
    · show ["archive", "deps", "modules", "name"].Pairwise (· < ·)
      decide
  · rcases ha : m.archive with _ | a
    · exact ⟨hdeps, hmodules, trivial, trivial⟩
    · exact ⟨trivial, hdeps, hmodules, trivial, trivial⟩

theorem ofRaw_toJson (m : Manifest) : ofRaw m.toJson.raw = .ok m := by
  obtain ⟨name, deps, modules, archive⟩ := m
  have hname : readString (glyphsOf "name") = .ok "name" := readString_glyphsOf _
  have hdeps : readString (glyphsOf "deps") = .ok "deps" := readString_glyphsOf _
  have hmodules : readString (glyphsOf "modules") = .ok "modules" := readString_glyphsOf _
  have harchive : readString (glyphsOf "archive") = .ok "archive" := readString_glyphsOf _
  have hrecord : (toJson ⟨name, deps, modules, archive⟩).raw.record
      ["name", "deps", "modules", "archive"] = .ok [some (.str (glyphsOf name)),
        some (ofStrings deps).raw,
        some (Json.obj (modules.entries.map fun e => (e.1, moduleToJson e.2))).raw,
        archive.map fun a => .str (glyphsOf a)] := by
    rcases archive with _ | a
    · simp only [toJson, Option.map_none, Option.toList_none, List.nil_append, raw, rawFields,
        Raw.record, Raw.place, hname, hdeps, hmodules, bind, Except.bind]
      rfl
    · simp only [toJson, Option.map_some, Option.toList_some, List.singleton_append, raw, rawFields,
        Raw.record, Raw.place, hname, hdeps, hmodules, harchive, bind, Except.bind]
      rfl
  have harchive' : Raw.optional Raw.string (archive.map fun a => .str (glyphsOf a)) =
      .ok archive := by
    rcases archive with _ | a
    · rfl
    · rw [Option.map_some, Raw.optional]
      · have hstring : Raw.string (.str (glyphsOf a)) = .ok a := readString_glyphsOf a
        rw [hstring]
        rfl
      · simp
  have hstring : Raw.string (.str (glyphsOf name)) = .ok name := readString_glyphsOf name
  simp only [ofRaw, hrecord, bind, Except.bind, Raw.required, hstring, Raw.withDefault,
    strings_ofStrings, modulesOfRaw_obj, harchive']
  rfl

/-- What is written of a manifest is read as the manifest. -/
theorem parse_layout_text (l : Layout) (m : Manifest) : parse (l.text m.toJson) = .ok m := by
  rw [parse, parse_text l m.legible_toJson.numbersRead]
  exact ofRaw_toJson m

/-- A manifest is restored from its text in any layout, and from the bytes of it; the text is one of
JSON. So manifests of which anything differs are told apart by their texts, in whatever layouts. -/
theorem layout_text_restores (l : Layout) (m : Manifest) :
    parse (l.text m.toJson) = .ok m
      ∧ parse (Text.ofBytes (l.text m.toJson).toUTF8) = .ok m
      ∧ Json.parse (l.text m.toJson) = .ok m.toJson
      ∧ ∀ (l' : Layout) (m' : Manifest),
        parse (l'.text m'.toJson) = parse (l.text m.toJson) ↔ m' = m := by
  have hread := parse_layout_text l m
  refine ⟨hread, by rw [Text.ofBytes_toUTF8, hread], parse_layout l m.legible_toJson,
    fun l' m' => ?_⟩
  rw [parse_layout_text l' m', hread, Except.ok.injEq]

end Manifest

end Bindery
