import Sting.Json.Report
import Sting.Proofs.Json.Numbers
import Sting.Proofs.Json.RoundTrip
import Sting.Proofs.Text.ByteOrder

/-!
# Decoding reports

What a decoder finds in the texts of environments, tokens and diagnostics. Names and texts come back
as they are, whatever characters they hold, and both styles say the same.
-/

namespace Sting

open Json

/-! ## Reports are well formed -/

/-- A natural number is written as a numeral. -/
theorem Json.wellFormed_ofNat (n : Nat) : WellFormed (.ofNat n) :=
  .number (isNumeral_toString n)

/-- Numbers that are no finite doubles are written as null, so no value breaks a tree. -/
theorem Value.wellFormed_json (value : Value) : WellFormed value.json := by
  cases value with
  | number x =>
    rw [Value.json]
    split
    · exact .number (isNumeral_render ‹_›)
    · exact .null
  | text content => exact .string content
  | boolean truth => exact .boolean truth

/-- The tree of an environment has a well-formed value in every field. -/
theorem Environment.wellFormed_json (env : Environment) : WellFormed env.json := by
  refine .object fun field hfield => ?_
  obtain ⟨⟨name, value⟩, -, rfl⟩ := List.mem_map.1 hfield
  exact value.wellFormed_json

/-- In the tree of a token only the line and the column are numbers. -/
theorem Token.wellFormed_json (t : Token) : WellFormed t.json := by
  refine .object ?_
  simp only [List.forall_mem_cons, List.not_mem_nil, false_implies, implies_true, and_true]
  exact ⟨.string _, .string _, wellFormed_ofNat _, wellFormed_ofNat _⟩

/-- A list of tokens is well formed as every token in it is. -/
theorem Token.wellFormed_jsonList (tokens : List Token) : WellFormed (Token.jsonList tokens) := by
  refine .array fun item hitem => ?_
  obtain ⟨t, -, rfl⟩ := List.mem_map.1 hitem
  exact t.wellFormed_json

/-- The parts of a place are natural numbers. -/
theorem Position.wellFormed_json (p : Position) : WellFormed p.json := by
  refine .object ?_
  simp only [List.forall_mem_cons, List.not_mem_nil, false_implies, implies_true, and_true]
  exact ⟨wellFormed_ofNat _, wellFormed_ofNat _, wellFormed_ofNat _⟩

/-- The fields of a diagnostic; the place is there exactly if the diagnostic has one. -/
theorem Diagnostic.json_eq (d : Diagnostic) :
    d.json = .object ([("code", .string d.kind.code), ("message", .string d.message)] ++
      d.position.toList.map fun p => ("position", p.json)) := by
  cases h : d.position <;> simp [Diagnostic.json, h]

/-- A diagnostic is texts and a place, if it has one. -/
theorem Diagnostic.wellFormed_json (d : Diagnostic) : WellFormed d.json := by
  rw [Diagnostic.json_eq]
  refine .object ?_
  simp only [List.forall_mem_append, List.forall_mem_cons, List.not_mem_nil, false_implies,
    implies_true, and_true]
  refine ⟨⟨.string _, .string _⟩, fun field hfield => ?_⟩
  obtain ⟨p, -, rfl⟩ := List.mem_map.1 hfield
  exact p.wellFormed_json

/-! ## The order of names -/

namespace Environment

/-- The entries of an environment are its bindings. -/
theorem mem_toList {env : Environment} {name : String} {value : Value} :
    (name, value) ∈ env.toList ↔ env.get? name = some value :=
  Std.ExtTreeMap.mem_toList_iff_getElem?_eq_some

/-- The names among the entries are those that are bound. -/
theorem mem_names_iff {env : Environment} {name : String} :
    name ∈ env.toList.map Prod.fst ↔ (env.get? name).isSome = true := by
  rw [List.mem_map, Option.isSome_iff_exists]
  constructor
  · rintro ⟨⟨_, value⟩, hmem, rfl⟩
    exact ⟨value, mem_toList.1 hmem⟩
  · rintro ⟨value, hvalue⟩
    exact ⟨(name, value), mem_toList.2 hvalue, rfl⟩

/-- The names of an environment ascend byte by byte. -/
theorem names_ascend (env : Environment) :
    (env.toList.map Prod.fst).Pairwise fun a b => Text.bytes a < Text.bytes b := by
  rw [List.pairwise_map]
  refine Std.ExtTreeMap.ordered_keys_toList.imp fun {a b} h => ?_
  exact Text.bytes_lt_bytes (compareOfLessAndEq_eq_lt.1 h)

end Environment

/-! ## What a decoder finds -/

/-- What the text of a value is decoded to. -/
inductive Json.StandsFor : Json → Value → Prop
  | text (content : String) : StandsFor (.string content) (.text content)
  | boolean (truth : Bool) : StandsFor (.boolean truth) (.boolean truth)
  | finite {x : Float} (h : Number.isFinite x = true) :
      StandsFor (.number (Number.render x)) (.number x)
  | nonfinite {x : Float} (h : Number.isFinite x = false) : StandsFor .null (.number x)

/-- The tree of a value stands for it. -/
theorem Value.standsFor_json (value : Value) : StandsFor value.json value := by
  cases value with
  | number x =>
    by_cases h : Number.isFinite x = true
    · rw [Value.json, if_pos h]
      exact .finite h
    · rw [Value.json, if_neg h]
      exact .nonfinite (Bool.eq_false_iff.2 h)
  | text content => exact .text content
  | boolean truth => exact .boolean truth

/-- Decoding gives back what was reported, and both styles say the same. An environment is an object
with a field for each name, once and in the order of the bytes; tokens are an array in their own
order; a diagnostic has its code, its message, and its place exactly if it has one. -/
theorem Json.decode_reports :
    (∀ env : Environment, ∃ fields : List (String × Json),
      (∀ style, decode (env.json.render style) = some (.object fields)) ∧
      (fields.map Prod.fst).Pairwise (fun a b => Text.bytes a < Text.bytes b) ∧
      (∀ name, name ∈ fields.map Prod.fst ↔ (env.get? name).isSome = true) ∧
      ∀ field ∈ fields, ∃ value, env.get? field.1 = some value ∧ StandsFor field.2 value) ∧
    (∀ (tokens : List Token) (style : Style),
      decode ((Token.jsonList tokens).render style) = some (.array (tokens.map fun t =>
        .object [("kind", .string t.kind.name), ("text", .string t.text),
          ("line", .number (toString t.position.line)),
          ("column", .number (toString t.position.column))]))) ∧
    ∀ (d : Diagnostic) (style : Style),
      decode (d.json.render style) = some (.object
        ([("code", .string d.kind.code), ("message", .string d.message)] ++
          d.position.toList.map fun p => ("position", .object
            [("line", .number (toString p.line)), ("column", .number (toString p.column)),
              ("offset", .number (toString p.offset))]))) := by
  refine ⟨fun env => ?_, fun tokens style => ?_, fun d style => ?_⟩
  · have hnames : (env.toList.map fun entry => (entry.1, entry.2.json)).map Prod.fst =
        env.toList.map Prod.fst := by
      rw [List.map_map]
      rfl
    have hdecode : ∀ style, decode (env.json.render style) =
        some (.object (env.toList.map fun entry => (entry.1, entry.2.json))) :=
      env.wellFormed_json.decode_render
    refine ⟨_, hdecode, ?_, ?_, ?_⟩
    · rw [hnames]
      exact env.names_ascend
    · intro name
      rw [hnames]
      exact Environment.mem_names_iff
    · intro field hfield
      obtain ⟨⟨name, value⟩, hmem, rfl⟩ := List.mem_map.1 hfield
      exact ⟨value, Environment.mem_toList.1 hmem, value.standsFor_json⟩
  · exact (Token.wellFormed_jsonList tokens).decode_render style
  · rw [d.wellFormed_json.decode_render style, d.json_eq]
    rfl

/-- A text of a quote and a newline comes back from an object on several lines. -/
theorem Json.decode_reports_quoted :
    ∃ fields, decode ((Environment.empty.set "é" (.text "\"\n")).json.render .pretty) =
        some (.object fields) ∧ ("é", .string "\"\n") ∈ fields := by
  obtain ⟨fields, hdecode, -, hnames, hfields⟩ :=
    Json.decode_reports.1 (Environment.empty.set "é" (.text "\"\n"))
  refine ⟨fields, hdecode .pretty, ?_⟩
  obtain ⟨⟨name, tree⟩, hmem, hname⟩ := List.mem_map.1 ((hnames "é").2 (by simp))
  obtain ⟨value, hvalue, hstands⟩ := hfields _ hmem
  subst hname
  rw [Environment.get?_set_self, Option.some.injEq] at hvalue
  subst hvalue
  cases hstands
  exact hmem

end Sting
