import Wireform.Proofs.Registry.Expansion

/-!
# The order of definitions

Moving the definitions of a document around changes nothing but the order of the names, as long as their keys
stand for different names. Keys may be texts or bytes, and of two keys that are the same text the last one
counts.
-/
namespace Wireform.Registry

variable {fields defs others : List (Value × Value)} {definitions : List (String × Value)}

/-- Other definitions in a document leave the rest of it as it is. -/
theorem readDefinitions_put (hread : readDefinitions (.map fields) = .ok definitions)
    (hfits : ∀ d ∈ others, ∃ name, Document.text d.1 = .ok name) :
    readDefinitions (.map (Value.put (.str "schemas") (.map others) fields)) =
      .ok (Named.distinct (others.map Document.named)) := by
  obtain ⟨_, heq, hkeys, hversion, hdefinitions⟩ := readDefinitions_eq_ok.mp hread
  cases heq
  obtain ⟨defs, hdefs, -⟩ := definitionsOf_eq_ok.mp hdefinitions
  refine readDefinitions_eq_ok.mpr ⟨_, rfl, ?_, ?_, definitionsOf_eq_ok.mpr ⟨others, ?_, ?_⟩⟩
  · rw [Document.badKeys, Value.keys_put, if_pos (Value.any_sameKey_of_get? hdefs)]
    exact hkeys
  · rw [versionComplaints, Value.get?_put_of_ne (by decide)]
    exact hversion
  · exact Value.get?_put_self ..
  · exact Document.namedEntries_eq_ok.mpr ⟨hfits, rfl⟩

theorem map_text_eq (htexts : ∀ d ∈ defs, ∃ name, Document.text d.1 = .ok name) :
    defs.map (fun d => Document.text d.1) = ((defs.map Document.named).map Prod.fst).map .ok := by
  rw [List.map_map, List.map_map]
  exact List.map_congr_left fun d hd => Document.text_eq_ok (htexts d hd)

/-- Definitions whose keys stand for different names keep their order when they are read. -/
theorem definitions_eq_map (hread : readDefinitions (.map fields) = .ok definitions)
    (hdefs : Value.get? "schemas" fields = some (.map defs))
    (hnames : (defs.map fun d => Document.text d.1).Nodup) :
    (∀ d ∈ defs, ∃ name, Document.text d.1 = .ok name) ∧ definitions = defs.map Document.named := by
  obtain ⟨_, heq, -, -, hdefinitions⟩ := readDefinitions_eq_ok.mp hread
  cases heq
  obtain ⟨_, hdefs', hnamed⟩ := definitionsOf_eq_ok.mp hdefinitions
  rw [hdefs] at hdefs'
  cases hdefs'
  obtain ⟨htexts, rfl⟩ := Document.namedEntries_eq_ok.mp hnamed
  rw [map_text_eq htexts] at hnames
  exact ⟨htexts, Named.distinct_of_nodup hnames.of_map⟩

/-- With the definitions in another order, a document gives a registry with the same schemas. -/
theorem ofDocument_perm {maxDepth : Option Int} {r : Registry}
    (h : (ofDocument maxDepth (.map fields)).1 = .ok r)
    (hdefs : Value.get? "schemas" fields = some (.map defs))
    (hnames : (defs.map fun d => Document.text d.1).Nodup) (hperm : defs.Perm others) :
    ∃ r', (ofDocument maxDepth
        (.map (Value.put (.str "schemas") (.map others) fields))).1 = .ok r' ∧
      r'.names.map .ok = others.map (fun d => Document.text d.1) ∧ r'.maxDepth = r.maxDepth ∧
      ∀ name, r'.get? name = r.get? name := by
  obtain ⟨definitions, hread, hload, hdepth, -, -⟩ := of_ofDocument h
  have hnodup := nodup_of_readDefinitions hread
  obtain ⟨htexts, rfl⟩ := definitions_eq_map hread hdefs hnames
  have htexts' : ∀ d ∈ others, ∃ name, Document.text d.1 = .ok name := fun d hd =>
    htexts d (hperm.mem_iff.mpr hd)
  have hperm' : (defs.map Document.named).Perm (others.map Document.named) := hperm.map _
  have hnodup' : ((others.map Document.named).map Prod.fst).Nodup :=
    (hperm'.map Prod.fst).nodup_iff.mp hnodup
  have hread' := readDefinitions_put hread htexts'
  rw [Named.distinct_of_nodup hnodup'] at hread'
  obtain ⟨r', hr'⟩ := exists_ofDocument maxDepth hread' (hload.perm hperm' hnodup)
  obtain ⟨_, hread'', -, hdepth', hkeys', -⟩ := of_ofDocument hr'
  rw [hread'] at hread''
  cases hread''
  refine ⟨r', hr', by rw [hkeys', map_text_eq htexts'], hdepth'.trans hdepth.symm, fun name => ?_⟩
  have hlookup := Named.lookup_perm hperm' hnodup
  apply Option.ext
  intro s
  rw [get?_eq_some_iff hread' hr', get?_eq_some_iff hread h, (hperm'.map Prod.fst).mem_iff]
  exact and_congr_right fun _ =>
    ⟨fun hs => hs.congr fun name => (hlookup name).symm, fun hs => hs.congr hlookup⟩

theorem decode_congr {r r' : Registry} {name : String} (hget : r'.get? name = r.get? name)
    (hdepth : r'.maxDepth = r.maxDepth) (v : Value) : r'.decode name v = r.decode name v := by
  rw [decode, hget, hdepth, decode]

theorem encode_congr {r r' : Registry} {name : String} (hget : r'.get? name = r.get? name) (v : Value) :
    r'.encode name v = r.encode name v := by
  rw [encode, hget, encode]

/-- References are transparent: under each name, a registry has the schema that the combinators build from
the definition with all references replaced. The order of the definitions does not matter if their keys stand
for different names. -/
theorem references_transparent {maxDepth : Option Int} {r : Registry}
    (h : (ofDocument maxDepth (.map fields)).1 = .ok r) :
    ∃ definitions defs, readDefinitions (.map fields) = .ok definitions ∧
      Value.get? "schemas" fields = some (.map defs) ∧
      (∀ name ∈ r.names, ∃ s, r.get? name = some s ∧ (∃ e, Expands definitions (.str name) e) ∧
        ∀ e, Expands definitions (.str name) e → e.schema.1 = .ok s) ∧
      ((defs.map fun d => Document.text d.1).Nodup → ∀ others, defs.Perm others →
        ∃ r', (ofDocument maxDepth
            (.map (Value.put (.str "schemas") (.map others) fields))).1 = .ok r' ∧
          r'.names.map .ok = others.map (fun d => Document.text d.1) ∧
          ∀ name, r'.get? name = r.get? name ∧
            ∀ v, r'.decode name v = r.decode name v ∧ r'.encode name v = r.encode name v) := by
  obtain ⟨definitions, hread, -⟩ := of_ofDocument h
  obtain ⟨_, heq, -, -, hdefinitions⟩ := readDefinitions_eq_ok.mp hread
  cases heq
  obtain ⟨defs, hdefs, -⟩ := definitionsOf_eq_ok.mp hdefinitions
  refine ⟨definitions, defs, hread, hdefs, fun name => get?_expands hread h, ?_⟩
  intro hnames others hperm
  obtain ⟨r', hr', hkeys, hdepth, hget⟩ := ofDocument_perm h hdefs hnames hperm
  refine ⟨r', hr', hkeys, fun name => ⟨hget name, fun v => ?_⟩⟩
  exact ⟨decode_congr (hget name) hdepth v, encode_congr (hget name) v⟩

/-- A line is a pair of points, whichever of the two is defined first. -/
theorem references_transparent_line : ∃ r r',
    (ofDocument none (document
      [("line", combined .tuple (.list [.str "point", .str "point"])),
        ("point", combined .tuple (.list [.str "float", .str "float"]))])).1 = .ok r ∧
    (ofDocument none (document
      [("point", combined .tuple (.list [.str "float", .str "float"])),
        ("line", combined .tuple (.list [.str "point", .str "point"]))])).1 = .ok r' ∧
    r.get? "line" = some (.tuple [.tuple [.scalar .float, .scalar .float],
      .tuple [.scalar .float, .scalar .float]]) ∧
    r'.get? "line" = r.get? "line" := by
  obtain ⟨r, hr⟩ := exists_of_isOk (x := (ofDocument none (document
    [("line", combined .tuple (.list [.str "point", .str "point"])),
      ("point", combined .tuple (.list [.str "float", .str "float"]))])).1) (by decide +kernel)
  obtain ⟨_, hread, -, -, hkeys, -⟩ := of_ofDocument hr
  rw [readDefinitions_document (by decide)] at hread
  cases hread
  obtain ⟨_, _, hread, hdefs, hnames, horder⟩ := references_transparent hr
  rw [← document, readDefinitions_document (by decide)] at hread
  cases hread
  cases hdefs
  have hpoint : Expands
      [("line", combined .tuple (.list [.str "point", .str "point"])),
        ("point", combined .tuple (.list [.str "float", .str "float"]))]
      (.str "point") (.tuple [.schema (.scalar .float), .schema (.scalar .float)]) :=
    .reference rfl rfl (expands_combined.mpr
      ⟨[.scalar .float, .scalar .float], .cons (.scalar rfl) (.cons (.scalar rfl) .nil), .tuple _ _⟩)
  have hline := expands_combined.mpr ⟨_, .cons hpoint (.cons hpoint .nil), .tuple [_, _] _⟩
  obtain ⟨s, hs, -, hall⟩ := hnames "line" (hkeys ▸ by decide)
  cases hall _ (.reference rfl rfl hline)
  obtain ⟨r', hr', -, hget⟩ := horder (by decide) _ (.swap _ _ _)
  exact ⟨r, r', hr, hr', hs, (hget "line").1⟩

/-- A key of bytes and a key of text may stand for one name, and then the later one counts: whether a text is
read as a number depends on the order of two definitions. -/
theorem order_matters_for_bytes : ∃ r r',
    (ofDocument none (.map [(.str "schemas", .map
      [(.str "a", .str "integer"), (.bytes [97], .str "string")])])).1 = .ok r ∧
    (ofDocument none (.map [(.str "schemas", .map
      [(.bytes [97], .str "string"), (.str "a", .str "integer")])])).1 = .ok r' ∧
    r.decode "a" (.str "7") = (.ok (.str "7"), []) ∧ r'.decode "a" (.str "7") = (.ok (.int 7), []) := by
  obtain ⟨r, hr⟩ := exists_of_isOk (x := (ofDocument none (.map [(.str "schemas", .map
    [(.str "a", .str "integer"), (.bytes [97], .str "string")])])).1) (by decide +kernel)
  obtain ⟨r', hr'⟩ := exists_of_isOk (x := (ofDocument none (.map [(.str "schemas", .map
    [(.bytes [97], .str "string"), (.str "a", .str "integer")])])).1) (by decide +kernel)
  have hread : readDefinitions (.map [(.str "schemas", .map
    [(.str "a", .str "integer"), (.bytes [97], .str "string")])]) = .ok [("a", .str "string")] := rfl
  have hread' : readDefinitions (.map [(.str "schemas", .map
    [(.bytes [97], .str "string"), (.str "a", .str "integer")])]) = .ok [("a", .str "integer")] := rfl
  have hget : r.get? "a" = some (.scalar .string) :=
    (get?_eq_some_iff hread hr).mpr ⟨by decide, .reference rfl rfl (.scalar rfl)⟩
  have hget' : r'.get? "a" = some (.scalar .integer) :=
    (get?_eq_some_iff hread' hr').mpr ⟨by decide, .reference rfl rfl (.scalar rfl)⟩
  obtain ⟨_, -, -, hdepth, -⟩ := of_ofDocument hr
  obtain ⟨_, -, -, hdepth', -⟩ := of_ofDocument hr'
  refine ⟨r, r', hr, hr', ?_, ?_⟩
  · rw [decode, hget, hdepth]
    rfl
  · rw [decode, hget', hdepth']
    rfl

end Wireform.Registry
