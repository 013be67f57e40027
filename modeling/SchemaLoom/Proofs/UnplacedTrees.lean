import SchemaLoom.Proofs.UnplacedText
import SchemaLoom.Proofs.Appending

namespace SchemaLoom

/-! Trees apart from the positions in them.  Merges, moves and searches look at names
and kinds only, so they commute with the erasure of positions. -/

/-! Erasing twice is erasing once. -/

theorem map_directive_unplaced_unplaced (directives : List Directive) :
    (directives.map Directive.unplaced).map Directive.unplaced =
      directives.map Directive.unplaced := by
  apply map_map_of_absorbed
  intro directive
  rfl

theorem InputValue.unplaced_unplaced (input : InputValue) :
    input.unplaced.unplaced = input.unplaced := by
  simp only [unplaced, map_directive_unplaced_unplaced]

theorem FieldDef.unplaced_unplaced (field : FieldDef) :
    field.unplaced.unplaced = field.unplaced := by
  simp only [unplaced, map_directive_unplaced_unplaced,
    map_map_of_absorbed InputValue.unplaced_unplaced]

theorem EnumValue.unplaced_unplaced (value : EnumValue) :
    value.unplaced.unplaced = value.unplaced := by
  simp only [unplaced, map_directive_unplaced_unplaced]

theorem TypeBody.unplaced_unplaced (body : TypeBody) :
    body.unplaced.unplaced = body.unplaced := by
  cases body <;>
    simp only [unplaced, map_map_of_absorbed FieldDef.unplaced_unplaced,
      map_map_of_absorbed EnumValue.unplaced_unplaced,
      map_map_of_absorbed InputValue.unplaced_unplaced]

theorem Definition.unplaced_unplaced (definition : Definition) :
    definition.unplaced.unplaced = definition.unplaced := by
  cases definition with
  | schema decl =>
      simp only [unplaced, SchemaDef.unplaced, map_directive_unplaced_unplaced]
  | directive decl =>
      simp only [unplaced, DirectiveDef.unplaced,
        map_map_of_absorbed InputValue.unplaced_unplaced]
  | type decl =>
      simp only [unplaced, TypeDecl.unplaced, map_directive_unplaced_unplaced,
        TypeBody.unplaced_unplaced]

theorem Document.unplaced_unplaced (document : Document) :
    document.unplaced.unplaced = document.unplaced :=
  congrArg Document.mk (map_map_of_absorbed Definition.unplaced_unplaced document.definitions)

/-! Merging and search. -/

namespace Definition

theorem name?_unplaced (definition : Definition) :
    definition.unplaced.name? = definition.name? := by
  cases definition <;> rfl

theorem kind_unplaced (definition : Definition) :
    definition.unplaced.kind = definition.kind := by
  cases definition with
  | type decl =>
      obtain ⟨form, pos, name, directives, body⟩ := decl
      cases body with
      | composite sort interfaces fields => cases sort <;> rfl
      | _ => rfl
  | _ => rfl

theorem key_unplaced (definition : Definition) :
    definition.unplaced.key = definition.key := by
  rw [key, key, name?_unplaced, kind_unplaced]

theorem concat?_unplaced (ours theirs : Definition) :
    ours.unplaced.concat? theirs.unplaced = (ours.concat? theirs).map unplaced := by
  cases ours with
  | type ours =>
      cases theirs with
      | type theirs =>
          obtain ⟨form, pos, name, directives, body⟩ := ours
          obtain ⟨form', pos', name', directives', body'⟩ := theirs
          cases body <;> cases body' <;>
            simp [concat?, unplaced, TypeDecl.unplaced, TypeBody.unplaced]
      | _ => rfl
  | _ => rfl

theorem merge_unplaced (policy : Policy) (ours theirs : Definition) :
    ours.unplaced.merge policy theirs.unplaced =
      ((ours.merge policy theirs).1, (ours.merge policy theirs).2.unplaced) := by
  unfold merge
  rw [kind_unplaced, kind_unplaced, concat?_unplaced]
  cases policy.joins ours.kind theirs.kind <;> cases ours.concat? theirs <;> cases policy <;> rfl

end Definition

theorem Matcher.selects_unplaced (matcher : Matcher) :
    matcher.selects ∘ Definition.unplaced = matcher.selects := by
  funext definition
  rw [Function.comp_apply, selects, selects, Definition.name?_unplaced]

theorem mergeInto_unplaced {wanted : Definition → Bool} (policy : Policy)
    (hwanted : ∀ definition, wanted definition.unplaced = wanted definition)
    (incoming : Definition) (held : List Definition) :
    mergeInto policy wanted incoming.unplaced (held.map Definition.unplaced) =
      (mergeInto policy wanted incoming held).map Definition.unplaced := by
  induction held with
  | nil => rfl
  | cons first rest ih =>
      simp only [List.map_cons, mergeInto, hwanted]
      split
      · rw [Definition.merge_unplaced, List.map_cons]
      · rw [ih, List.map_cons]

namespace Tree

theorem appendAll_unplaced (held incoming : List Definition) :
    appendAll (held.map Definition.unplaced) (incoming.map Definition.unplaced) =
      (appendAll held incoming).map Definition.unplaced := by
  rw [appendAll_eq_mergeInto, appendAll_eq_mergeInto]
  induction incoming generalizing held with
  | nil => rfl
  | cons first rest ih =>
      rw [List.map_cons, List.foldl_cons, List.foldl_cons, ← ih]
      simp only [Definition.key_unplaced]
      rw [mergeInto_unplaced]
      intro definition
      rw [Definition.key_unplaced]

def unplaced (tree : Tree) : Tree :=
  ⟨tree.document.map Document.unplaced⟩

theorem unplaced_unplaced (tree : Tree) : tree.unplaced.unplaced = tree.unplaced := by
  simp only [unplaced, Option.map_map, Function.comp_def, Document.unplaced_unplaced]

theorem definitions_unplaced (tree : Tree) :
    tree.unplaced.definitions = tree.definitions.map Definition.unplaced := by
  obtain ⟨document⟩ := tree
  cases document <;> rfl

theorem unplaced_ofDocument (document : Document) :
    (ofDocument document).unplaced = ofDocument document.unplaced := rfl

theorem find?_unplaced (tree : Tree) (matcher : Matcher) :
    tree.unplaced.find? matcher = (tree.find? matcher).map Definition.unplaced := by
  rw [find?, find?, definitions_unplaced, List.find?_map, Matcher.selects_unplaced]

theorem findIndex?_unplaced (tree : Tree) (matcher : Matcher) :
    tree.unplaced.findIndex? matcher = tree.findIndex? matcher := by
  rw [findIndex?, findIndex?, definitions_unplaced, List.findIdx?_map,
    Matcher.selects_unplaced]

theorem remove_unplaced (tree : Tree) (matcher : Matcher) :
    tree.unplaced.remove matcher =
      ((tree.remove matcher).1.map Definition.unplaced, (tree.remove matcher).2.unplaced) := by
  rw [remove, find?_unplaced]
  obtain ⟨document⟩ := tree
  cases document with
  | none => rfl
  | some document =>
      simp only [remove, unplaced, Option.map_some, Document.unplaced, List.eraseP_map,
        Matcher.selects_unplaced]

theorem consume_unplaced (tree source : Tree) (matcher : Matcher) :
    tree.unplaced.consume source.unplaced matcher =
      ((tree.consume source matcher).1.unplaced, (tree.consume source matcher).2.unplaced) := by
  unfold consume
  rw [remove_unplaced]
  obtain ⟨document⟩ := tree
  cases document with
  | none => rfl
  | some document =>
      rcases source.remove matcher with ⟨found, rest⟩
      cases found with
      | none => rfl
      | some definition =>
          simp only [unplaced, Option.map_some, Document.unplaced, ofDocument]
          rw [mergeInto_unplaced]
          exact fun definition => congrFun matcher.selects_unplaced definition

theorem print_unplaced (tree : Tree) : tree.unplaced.print = tree.print := by
  obtain ⟨document⟩ := tree
  cases document with
  | none => rfl
  | some document => exact document.print_unplaced

theorem overlay_unplaced (tree : Tree) (definitions : Option (List Definition)) :
    tree.unplaced.overlay (definitions.map (List.map Definition.unplaced)) =
      (tree.overlay definitions).unplaced := by
  cases definitions with
  | none => rfl
  | some definitions =>
      have hprint : Document.print ⟨definitions.map Definition.unplaced⟩ =
          Document.print ⟨definitions⟩ := Document.print_unplaced ⟨definitions⟩
      simp only [overlay, Option.map_some, hprint]
      cases Document.print ⟨definitions⟩ <;> rfl

/-! The outline lists the same names at the same places. -/

def unplacedEntry (entry : String × Nat × Definition) : String × Nat × Definition :=
  (entry.1, entry.2.1, entry.2.2.unplaced)

theorem listFirst_unplaced (listed : List (String × Nat × Definition)) (index : Nat)
    (definition : Definition) :
    listFirst (listed.map unplacedEntry) (index, definition.unplaced) =
      (listFirst listed (index, definition)).map unplacedEntry := by
  simp only [listFirst, Definition.name?_unplaced]
  cases definition.name? with
  | none => rfl
  | some name =>
      simp only [List.any_map]
      change (if listed.any (fun known => known.1 == name) then _ else _) = _
      split
      · rfl
      · rw [List.map_append]
        rfl

theorem outline_unplaced (tree : Tree) :
    tree.unplaced.outline = tree.outline.map unplacedEntry := by
  suffices hfold : ∀ (entries : List (Nat × Definition)) listed,
      (entries.map (Prod.map id Definition.unplaced)).foldl listFirst
          (listed.map unplacedEntry) =
        (entries.foldl listFirst listed).map unplacedEntry by
    rw [outline, definitions_unplaced, List.zipIdx_map, List.map_map]
    have hswap : Prod.swap ∘ Prod.map Definition.unplaced (id : Nat → Nat) =
        Prod.map id Definition.unplaced ∘ Prod.swap := rfl
    rw [hswap, ← List.map_map]
    exact hfold _ []
  intro entries
  induction entries with
  | nil => exact fun _ => rfl
  | cons first rest ih =>
      intro listed
      rw [List.map_cons, List.foldl_cons, List.foldl_cons, ← ih, ← listFirst_unplaced]
      rfl

end Tree

end SchemaLoom
