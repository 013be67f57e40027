import SchemaLoom.Proofs.MergeEvents
import Mathlib.Data.List.Induction

namespace SchemaLoom

/-! Root types in a merge.  A tree gives each root type as many definitions as the
root is listed; those are folded in, whatever their kind.  The definitions of
that name that are left take the place of what is there, unless they are of its
kind.  So a root type has all its parts in the end exactly if nothing was there
whenever one of another kind was left. -/

/-- The lists that objects and interfaces are put together from. -/
@[ext] structure Parts where
  interfaces : List String
  directives : List Directive
  fields : List FieldDef

namespace Parts

def empty : Parts := ⟨[], [], []⟩

def append (first second : Parts) : Parts :=
  ⟨first.interfaces ++ second.interfaces, first.directives ++ second.directives,
    first.fields ++ second.fields⟩

/-- Each of the three lists, one behind the other. -/
def concat (all : List Parts) : Parts :=
  all.foldr append empty

theorem concat_concat_singleton (all : List Parts) (last : Parts) :
    concat (all ++ [last]) = (concat all).append last := by
  induction all with
  | nil => simp [concat, append, empty]
  | cons first all ih =>
      simp only [concat, List.cons_append, List.foldr_cons] at ih ⊢
      rw [ih]
      simp [append, List.append_assoc]

theorem append_left_inj {first second last : Parts} :
    first.append last = second.append last ↔ first = second := by
  simp [append, Parts.ext_iff]

theorem append_eq_right_iff {first last : Parts} :
    last = first.append last ↔ first = empty := by
  simp [append, empty, Parts.ext_iff]

theorem concat_eq_empty_iff {all : List Parts} :
    concat all = empty ↔ ∀ parts ∈ all, parts = empty := by
  induction all with
  | nil => simp [concat]
  | cons first all ih =>
      have hcons : concat (first :: all) = first.append (concat all) := rfl
      rw [hcons, List.forall_mem_cons, ← ih]
      simp only [append, empty, Parts.ext_iff, List.append_eq_nil_iff]
      tauto

end Parts

/-- Objects, interfaces and the extensions of both. -/
def Kind.composites : List Kind :=
  [.type .object false, .type .object true, .type .interface false, .type .interface true]

theorem Kind.strategy_eq_concatFields_iff {kind : Kind} :
    kind.strategy = .concatFields ↔ kind ∈ composites := by
  cases kind with
  | schema => simp [strategy, composites]
  | directive => simp [strategy, composites]
  | type shape extended => cases shape <;> cases extended <;> simp [strategy, composites]

theorem Policy.joins_iff {policy : Policy} {ours theirs : Kind} :
    policy.joins ours theirs = true ↔
      ours ∈ Kind.composites ∧ (policy = .keepExisting ∨ ours = theirs) := by
  rw [← Kind.strategy_eq_concatFields_iff]
  cases policy <;> simp [joins]

namespace Definition

def parts? : Definition → Option Parts
  | .type decl =>
      match decl.body with
      | .composite _ interfaces fields => some ⟨interfaces, decl.directives, fields⟩
      | _ => none
  | _ => none

def parts (definition : Definition) : Parts :=
  definition.parts?.getD .empty

theorem parts?_eq_some {definition : Definition} (h : definition.parts?.isSome) :
    definition.parts? = some definition.parts := by
  obtain ⟨found, hfound⟩ := Option.isSome_iff_exists.mp h
  simp [parts, hfound]

/-- Two definitions with parts can be put behind each other. -/
theorem concat?_of_parts {ours theirs : Definition}
    (hours : ours.parts?.isSome) (htheirs : theirs.parts?.isSome) :
    ∃ joined, ours.concat? theirs = some joined ∧
      joined.parts? = some (ours.parts.append theirs.parts) ∧
      joined.kind = ours.kind := by
  cases ours with
  | schema decl => simp [parts?] at hours
  | directive decl => simp [parts?] at hours
  | type ours =>
      cases theirs with
      | schema decl => simp [parts?] at htheirs
      | directive decl => simp [parts?] at htheirs
      | type theirs =>
          obtain ⟨form, pos, name, directives, body⟩ := ours
          obtain ⟨form', pos', name', directives', body'⟩ := theirs
          cases body <;> cases body' <;> simp [parts?] at hours htheirs
          rename_i sort interfaces fields sort' interfaces' fields'
          refine ⟨_, rfl, rfl, ?_⟩
          cases sort <;> rfl

theorem parts?_isSome_iff {definition : Definition} :
    definition.parts?.isSome ↔ definition.kind ∈ Kind.composites := by
  cases definition with
  | schema decl => simp [parts?, kind, Kind.composites]
  | directive decl => simp [parts?, kind, Kind.composites]
  | type decl =>
      obtain ⟨form, pos, name, directives, body⟩ := decl
      cases body with
      | composite sort interfaces fields =>
          cases sort <;> cases form <;>
            simp [parts?, kind, Kind.composites, TypeBody.shape, TypeForm.isExtension]
      | _ => simp [parts?, kind, Kind.composites, TypeBody.shape]

theorem merge_joins {policy : Policy} {ours theirs : Definition}
    (hours : ours.parts?.isSome) (htheirs : theirs.parts?.isSome)
    (hjoins : policy = .replaceWins → ours.kind = theirs.kind) :
    (ours.merge policy theirs).2.parts? =
        some (ours.parts.append theirs.parts) ∧
      (ours.merge policy theirs).2.kind = ours.kind := by
  obtain ⟨joined, hjoined, hparts, hkind⟩ := concat?_of_parts hours htheirs
  have hpolicy : policy.joins ours.kind theirs.kind = true := by
    refine Policy.joins_iff.mpr ⟨parts?_isSome_iff.mp hours, ?_⟩
    cases policy with
    | keepExisting => exact .inl rfl
    | replaceWins => exact .inr (hjoins rfl)
  simp [merge, hpolicy, hjoined, hparts, hkind]

theorem merge_replaces {ours theirs : Definition} (hkind : ours.kind ≠ theirs.kind) :
    (ours.merge .replaceWins theirs).2 = theirs := by
  simp [merge, Policy.joins, hkind]

end Definition

namespace Event

/-- The definition whose kind is held behind some events: the last one that was
left over, or else the first of all. -/
def lead? (events : List Event) : Option Definition :=
  ((events.filter fun event => event.policy = .replaceWins).getLast?.or
    events.head?).map Event.definition

/-- Every definition that is left over has the kind that leads before it, or there
are no parts before it. -/
def LosesNothing (events : List Event) : Prop :=
  ∀ before event after, events = before ++ event :: after →
    event.policy = .replaceWins →
    (∀ lead, lead? before = some lead → lead.kind = event.definition.kind) ∨
      ∀ earlier ∈ before, earlier.definition.parts = .empty

theorem losesNothing_concat {events : List Event} {last : Event} :
    LosesNothing (events ++ [last]) ↔
      LosesNothing events ∧
        (last.policy = .replaceWins →
          (∀ lead, lead? events = some lead → lead.kind = last.definition.kind) ∨
            ∀ earlier ∈ events, earlier.definition.parts = .empty) := by
  constructor
  · intro hall
    refine ⟨?_, hall events last [] rfl⟩
    intro before event after hevents
    exact hall before event (after ++ [last]) (by simp [hevents])
  · rintro ⟨hevents, hlast⟩ before event after hsplit
    rcases List.eq_nil_or_concat after with rfl | ⟨after, other, rfl⟩
    · obtain ⟨rfl, rfl⟩ := List.append_inj' hsplit rfl |>.imp_right
        (fun h => (List.cons.inj h).1)
      exact hlast
    · have hsplit' : events ++ [last] = (before ++ event :: after) ++ [other] := by
        simpa using hsplit
      exact hevents before event after (List.append_inj' hsplit' rfl).1

theorem lead?_concat (events : List Event) (last : Event) :
    lead? (events ++ [last]) =
      if last.policy = .replaceWins then some last.definition
      else (lead? events).or (some last.definition) := by
  by_cases hpolicy : last.policy = .replaceWins
  · simp [lead?, hpolicy]
  · cases events with
    | nil => simp [lead?, hpolicy]
    | cons first rest =>
        simp [lead?, hpolicy]

theorem combine_concat (events : List Event) (last : Event) :
    combine (events ++ [last]) =
      some (match combine events with
        | none => last.definition
        | some ours => (ours.merge last.policy last.definition).2) := by
  cases events with
  | nil => rfl
  | cons first rest => simp [combine]

/-- All parts of the definitions, one behind the other. -/
def allParts (events : List Event) : Parts :=
  .concat (events.map fun event => event.definition.parts)

private theorem allParts_concat (events : List Event) (last : Event) :
    allParts (events ++ [last]) = (allParts events).append last.definition.parts := by
  rw [allParts, List.map_append]
  exact Parts.concat_concat_singleton _ _

private theorem allParts_eq_empty_iff {events : List Event} :
    allParts events = .empty ↔
      ∀ event ∈ events, event.definition.parts = .empty := by
  simp [allParts, Parts.concat_eq_empty_iff]

/-- The definition held behind some events has the kind that leads, and it has all
parts so far exactly if none was lost. -/
structure Holds (events : List Event) (ours lead : Definition) : Prop where
  combined : combine events = some ours
  led : lead? events = some lead
  kind_eq : ours.kind = lead.kind
  hasParts : ours.parts?.isSome
  complete_iff : ours.parts = allParts events ↔ LosesNothing events

theorem Holds.first {event : Event} (hparts : event.definition.parts?.isSome) :
    Holds [event] event.definition event.definition where
  combined := rfl
  led := by
    by_cases hpolicy : event.policy = .replaceWins <;> simp [lead?, hpolicy]
  kind_eq := rfl
  hasParts := hparts
  complete_iff := by
    have hlead : lead? ([] : List Event) = none := rfl
    have hnothing : LosesNothing [] := fun before event after h => by simp at h
    rw [← List.nil_append [event], losesNothing_concat, hlead]
    simp [hnothing, allParts, Parts.concat, Parts.append, Parts.empty]

theorem Holds.join {events : List Event} {ours lead : Definition} {last : Event}
    (h : Holds events ours lead) (hlast : last.definition.parts?.isSome)
    (hjoins : last.policy = .replaceWins → ours.kind = last.definition.kind) :
    Holds (events ++ [last]) (ours.merge last.policy last.definition).2
      (if last.policy = .replaceWins then last.definition else lead) := by
  obtain ⟨hparts, hkind⟩ := Definition.merge_joins h.hasParts hlast hjoins
  refine ⟨by simp [combine_concat, h.combined], ?_, ?_, by simp [hparts], ?_⟩
  · rw [lead?_concat, h.led]
    split <;> rfl
  · rw [hkind]
    split
    · exact hjoins ‹_›
    · exact h.kind_eq
  · have hled : last.policy = .replaceWins → ∀ other, some lead = some other →
        other.kind = last.definition.kind := by
      intro hpolicy other hother
      cases hother
      exact h.kind_eq.symm.trans (hjoins hpolicy)
    have hmerged : (ours.merge last.policy last.definition).2.parts =
        ours.parts.append last.definition.parts := by
      simp [Definition.parts, hparts]
    rw [hmerged, allParts_concat, Parts.append_left_inj, h.complete_iff,
      losesNothing_concat, h.led]
    exact ⟨fun hall => ⟨hall, fun hpolicy => .inl (hled hpolicy)⟩, fun hall => hall.1⟩

theorem Holds.replace {events : List Event} {ours lead theirs : Definition}
    (h : Holds events ours lead) (htheirs : theirs.parts?.isSome)
    (hkind : ours.kind ≠ theirs.kind) :
    Holds (events ++ [⟨.replaceWins, theirs⟩]) theirs theirs := by
  refine ⟨?_, by simp [lead?_concat], rfl, htheirs, ?_⟩
  · simp [combine_concat, h.combined, Definition.merge_replaces hkind]
  · have hled : ¬ ∀ other, some lead = some other → other.kind = theirs.kind :=
      fun hall => hkind (h.kind_eq.trans (hall lead rfl))
    rw [allParts_concat, Parts.append_eq_right_iff, allParts_eq_empty_iff,
      losesNothing_concat, h.led]
    constructor
    · intro hempty
      refine ⟨?_, fun _ => .inr hempty⟩
      intro before event after hsplit _
      exact .inr fun earlier hearlier => hempty earlier (by simp [hsplit, hearlier])
    · rintro ⟨_, hlost⟩
      exact (hlost rfl).resolve_left hled

/-- Behind any run of events of definitions with parts. -/
theorem exists_holds (events : List Event) (hne : events ≠ [])
    (hparts : ∀ event ∈ events, event.definition.parts?.isSome) :
    ∃ ours lead, Holds events ours lead := by
  induction events using List.reverseRecOn with
  | nil => exact absurd rfl hne
  | append_singleton events last ih =>
      have hlast : last.definition.parts?.isSome := hparts last (by simp)
      by_cases hevents : events = []
      · subst hevents
        exact ⟨_, _, Holds.first hlast⟩
      · obtain ⟨ours, lead, hours⟩ :=
          ih hevents fun event hevent => hparts event (by simp [hevent])
        by_cases hjoins : last.policy = .replaceWins → ours.kind = last.definition.kind
        · exact ⟨_, _, hours.join hlast hjoins⟩
        · obtain ⟨policy, theirs⟩ := last
          obtain ⟨rfl, hkind⟩ := Classical.not_imp.mp hjoins
          exact ⟨_, _, hours.replace hlast hkind⟩

end Event

/-! Which definitions of a root type are folded in. -/

theorem ofKey_of_find?_eq_none {definitions : List Definition} {root : String}
    (hnone : definitions.find? (Matcher.name root).selects = none) :
    ofKey (.named root) definitions = [] := by
  rw [ofKey, List.filter_eq_nil_iff]
  intro definition hdefinition hkey
  exact List.find?_eq_none.mp hnone definition hdefinition
    (Definition.selects_name_iff.mpr (of_decide_eq_true hkey))

theorem find?_selects_ofKey {definitions : List Definition} {root : String}
    {found : Definition}
    (hfound : definitions.find? (Matcher.name root).selects = some found) :
    ofKey (.named root) definitions =
      found :: ofKey (.named root)
        (definitions.eraseP (Matcher.name root).selects) := by
  induction definitions with
  | nil => cases hfound
  | cons first rest ih =>
      cases hselects : (Matcher.name root).selects first with
      | true =>
          have hkey := Definition.selects_name_iff.mp hselects
          rw [List.find?_cons_of_pos hselects] at hfound
          cases hfound
          simp [ofKey, hkey, hselects]
      | false =>
          have hkey : first.key ≠ .named root := fun h => by
            simp [Definition.selects_name_iff.mpr h] at hselects
          rw [List.find?_cons_of_neg (by simp [hselects])] at hfound
          simpa [ofKey, hkey, hselects] using ih hfound

theorem ofKey_eraseP_of_ne (definitions : List Definition) {root : String} {key : Key}
    (hkey : key ≠ .named root) :
    ofKey key (definitions.eraseP (Matcher.name root).selects) =
      ofKey key definitions := by
  induction definitions with
  | nil => rfl
  | cons first rest ih =>
      cases hselects : (Matcher.name root).selects first with
      | true =>
          have hfirst : first.key ≠ key :=
            Definition.selects_name_iff.mp hselects ▸ hkey.symm
          simp [ofKey, hfirst, hselects]
      | false =>
          simp only [ofKey] at ih
          simp [ofKey, hselects, List.filter_cons, ih]

/-- Of the definitions of a name as many are taken as the name is listed. -/
theorem ofKey_takeRoots (roots : List String) (definitions : List Definition)
    (root : String) :
    ofKey (.named root) (takeRoots roots definitions).1 =
        (ofKey (.named root) definitions).take (roots.count root) ∧
      ofKey (.named root) (takeRoots roots definitions).2 =
        (ofKey (.named root) definitions).drop (roots.count root) := by
  induction roots generalizing definitions with
  | nil => simp [takeRoots, ofKey]
  | cons other roots ih =>
      by_cases hother : other = root
      · subst hother
        cases hfound : definitions.find? (Matcher.name other).selects with
        | none =>
            have hnone := ofKey_of_find?_eq_none hfound
            simpa [takeRoots, hfound, hnone] using ih definitions
        | some found =>
            have hkey : found.key = .named other :=
              Definition.selects_name_iff.mp (List.find?_some hfound)
            obtain ⟨htaken, hleft⟩ :=
              ih (definitions.eraseP (Matcher.name other).selects)
            rw [find?_selects_ofKey hfound]
            simp only [takeRoots, hfound, List.count_cons_self, List.take_succ_cons,
              List.drop_succ_cons]
            refine ⟨?_, hleft⟩
            rw [← htaken]
            simp [ofKey, hkey]
      · have hcount : (other :: roots).count root = roots.count root := by
          simp [hother]
        have hne : (Key.named root) ≠ .named other := by
          simpa using fun h => hother h.symm
        rw [hcount]
        cases hfound : definitions.find? (Matcher.name other).selects with
        | none => simpa [takeRoots, hfound] using ih definitions
        | some found =>
            have hkey : found.key ≠ .named root :=
              Definition.selects_name_iff.mp (List.find?_some hfound) ▸ hne.symm
            have hrest := ih (definitions.eraseP (Matcher.name other).selects)
            rw [ofKey_eraseP_of_ne definitions hne] at hrest
            simpa [takeRoots, hfound, ofKey, hkey] using hrest

/-- The definitions of a name in all trees. -/
def namedIn (name : String) (trees : List Tree) : List Definition :=
  trees.flatMap fun tree => tree.definitions.filter fun definition =>
    definition.name? = some name

/-- How the definitions of a root type reach the merge: of every tree as many are
folded in as the root is listed, and the others are left over. -/
def rootEvents (roots : List String) (root : String) (trees : List Tree) : List Event :=
  trees.flatMap fun tree =>
    ((namedIn root [tree]).take (roots.count root)).map (Event.mk .keepExisting)
      ++ ((namedIn root [tree]).drop (roots.count root)).map (Event.mk .replaceWins)

theorem ofKey_named (name : String) (definitions : List Definition) :
    ofKey (.named name) definitions =
      definitions.filter fun definition => definition.name? = some name := by
  simp [ofKey, Definition.key_eq_named_iff]

theorem filter_map_mk (policy : Policy) (key : Key) (definitions : List Definition) :
    ((definitions.map (Event.mk policy)).filter fun event => event.key = key) =
      (ofKey key definitions).map (Event.mk policy) := by
  rw [List.filter_map]
  rfl

theorem filter_events_root (roots : List String) (root : String) (trees : List Tree) :
    ((trees.flatMap (Tree.events roots)).filter fun event => event.key = .named root) =
      rootEvents roots root trees := by
  rw [List.filter_flatMap, rootEvents]
  congr 1
  funext tree
  obtain ⟨htaken, hleft⟩ := ofKey_takeRoots roots tree.definitions root
  rw [Tree.events, List.filter_append, filter_map_mk, filter_map_mk, htaken, hleft]
  simp [namedIn, ofKey_named]

theorem map_definition_rootEvents (roots : List String) (root : String)
    (trees : List Tree) :
    (rootEvents roots root trees).map Event.definition = namedIn root trees := by
  simp [rootEvents, namedIn, List.map_flatMap, Function.comp_def]

/-- Definitions of one name that are all objects or interfaces are merged into one
definition.  It has the parts of all of them, in the order of the trees, exactly
if none that is left over is of another kind than what it meets, or nothing was
there to lose. -/
theorem mergeAll_root_parts_iff (trees : List Tree) (roots : List String)
    (root : String) (hfound : namedIn root trees ≠ [])
    (hparts : ∀ definition ∈ namedIn root trees, definition.parts?.isSome) :
    ∃ merged,
      (Tree.mergeAll trees roots).definitions.filter
          (fun definition => definition.name? = some root) = [merged] ∧
      (merged.parts? =
          some (Parts.concat ((namedIn root trees).map Definition.parts)) ↔
        Event.LosesNothing (rootEvents roots root trees)) := by
  have hdefinitions := map_definition_rootEvents roots root trees
  have hne : rootEvents roots root trees ≠ [] := by
    intro hnil
    rw [hnil] at hdefinitions
    exact hfound hdefinitions.symm
  have hevents : ∀ event ∈ rootEvents roots root trees,
      event.definition.parts?.isSome := by
    intro event hevent
    exact hparts event.definition (hdefinitions ▸ List.mem_map_of_mem hevent)
  obtain ⟨merged, lead, hholds⟩ := Event.exists_holds _ hne hevents
  have hall : Event.allParts (rootEvents roots root trees) =
      Parts.concat ((namedIn root trees).map Definition.parts) := by
    rw [← hdefinitions, List.map_map]
    rfl
  refine ⟨merged, ?_, ?_⟩
  · rw [← ofKey_named, Tree.ofKey_mergeAll, filter_events_root, hholds.combined]
    rfl
  · rw [Definition.parts?_eq_some hholds.hasParts, Option.some.injEq, ← hall,
      hholds.complete_iff]

/-- The root type of queries with a single field. -/
def queryWith (form : TypeForm) (field : String) : Definition :=
  .type {
    form
    pos := .start
    name := queryType
    directives := []
    body := .composite .object [] [{
      pos := .start, description := none, name := field, arguments := [],
      type := .named "Int", directives := [] }] }

theorem mergeAll_root_parts_iff_queryWith :
    ∃ merged,
      (Tree.mergeAll [.ofDocument ⟨[queryWith (.definition none) "a"]⟩,
          .ofDocument ⟨[queryWith .extension "b"]⟩] [queryType]).definitions.filter
          (fun definition => definition.name? = some queryType) = [merged] ∧
      (merged.parts? = some (Parts.concat
          [(queryWith (.definition none) "a").parts,
            (queryWith .extension "b").parts]) ↔
        Event.LosesNothing [⟨.keepExisting, queryWith (.definition none) "a"⟩,
          ⟨.keepExisting, queryWith .extension "b"⟩]) := by
  have hparts : ∀ definition ∈ [queryWith (.definition none) "a",
      queryWith .extension "b"], definition.parts?.isSome := by
    simp [queryWith, Definition.parts?]
  exact mergeAll_root_parts_iff
    [.ofDocument ⟨[queryWith (.definition none) "a"]⟩,
      .ofDocument ⟨[queryWith .extension "b"]⟩] [queryType] queryType
    (List.cons_ne_nil _ _) hparts

/-- A root type that is defined and extended in one tree loses the parts of its
definition. -/
theorem mergeAll_definition_with_extension :
    namedIn queryType [.ofDocument ⟨[queryWith (.definition none) "a",
        queryWith .extension "b"]⟩] =
      [queryWith (.definition none) "a", queryWith .extension "b"] ∧
    (Tree.mergeAll [.ofDocument ⟨[queryWith (.definition none) "a",
        queryWith .extension "b"]⟩] [queryType]).definitions =
      [queryWith .extension "b"] ∧
    (queryWith .extension "b").parts? ≠ some (Parts.concat
      [(queryWith (.definition none) "a").parts,
        (queryWith .extension "b").parts]) := by
  refine ⟨rfl, rfl, ?_⟩
  intro h
  have hfields := congrArg (fun parts => parts.map fun p => p.fields.length) h
  exact absurd hfields (by decide)

end SchemaLoom
