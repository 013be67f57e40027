import SchemaLoom.Proofs.MergeClosed
import SchemaLoom.Proofs.ParsedSound
import SchemaLoom.Tree.Forest

namespace SchemaLoom

/-! Trees that steps can reach.  Their documents pass the name checks: what is read
from a text does, merging puts checked parts together, and an overlay is checked
before it is kept.  So every tree that has a document can be written. -/

def Checked (definitions : List Definition) : Prop :=
  ∀ definition ∈ definitions, definition.check = .ok ()

theorem Document.Sound.checked {document : Document} (h : document.Sound) :
    Checked document.definitions :=
  Document.check_eq_ok_iff.mp h.check_eq_ok

namespace Definition

/-- Parts of one kind of definition can be put behind those of another. -/
theorem concat?_check {ours theirs joined : Definition} (hours : ours.check = .ok ())
    (htheirs : theirs.check = .ok ()) (h : ours.concat? theirs = some joined) :
    joined.check = .ok () := by
  unfold concat? at h
  split at h
  · rename_i ours theirs
    split at h
    · rename_i sort interfaces fields sort' interfaces' fields' hbody hbody'
      cases h
      obtain ⟨hname, hdirectives, hparts⟩ := TypeDecl.check_eq_ok_iff.mp hours
      obtain ⟨_, hdirectives', hparts'⟩ := TypeDecl.check_eq_ok_iff.mp htheirs
      rw [hbody] at hparts
      rw [hbody'] at hparts'
      refine TypeDecl.check_eq_ok_iff.mpr ⟨hname, ?_, ?_, ?_⟩
      · exact List.forall_mem_append.mpr ⟨hdirectives, hdirectives'⟩
      · exact List.forall_mem_append.mpr ⟨hparts.1, hparts'.1⟩
      · exact List.forall_mem_append.mpr ⟨hparts.2, hparts'.2⟩
    · cases h
  · cases h

theorem mergeClosed_check : MergeClosed fun definition => definition.check = .ok () :=
  .of_concat? fun _ _ _ => concat?_check

end Definition

def Tree.Printable (tree : Tree) : Prop :=
  Checked tree.definitions

def Source.Printable : Source → Prop
  | .tree content => content.Printable
  | _ => True

theorem Document.print_eq_ok_iff {document : Document} {text : String} :
    document.print = .ok text ↔
      document.check = .ok () ∧ text = String.ofList document.toText := by
  unfold Document.print
  cases hcheck : document.check with
  | error error =>
      constructor
      · intro h
        cases h
      · rintro ⟨h, _⟩
        cases h
  | ok passed =>
      constructor
      · intro h
        cases h
        exact ⟨rfl, rfl⟩
      · rintro ⟨_, rfl⟩
        rfl

theorem Document.normalize_eq_ok_iff {document result : Document} :
    document.normalize = .ok result ↔
      document.check = .ok () ∧ Document.ofText document.toText = .ok result := by
  unfold Document.normalize
  cases hprint : document.print with
  | error error =>
      constructor
      · intro h
        cases h
      · rintro ⟨hcheck, _⟩
        rw [Document.print_eq_ok_iff.mpr ⟨hcheck, rfl⟩] at hprint
        cases hprint
  | ok text =>
      obtain ⟨hcheck, rfl⟩ := Document.print_eq_ok_iff.mp hprint
      have hparse : Document.parse (String.ofList document.toText) =
          Document.ofText document.toText := by
        rw [Document.parse, String.toList_ofList]
      change (Document.parse _).mapError SourceError.parse = .ok result ↔ _
      rw [hparse]
      cases Document.ofText document.toText <;> simp [Except.mapError, hcheck]

theorem Document.normalize_sound {document result : Document}
    (h : document.normalize = .ok result) : result.Sound :=
  Document.ofText_sound (Document.normalize_eq_ok_iff.mp h).2

theorem Source.document?_checked {source : Source} {document : Document}
    (hsource : source.Printable) (h : source.document? = some document) :
    Checked document.definitions := by
  unfold Source.document? Source.resolve at h
  cases source with
  | text content =>
      cases hparse : Document.parse content with
      | error error => simp [hparse, Except.mapError, Functor.map, Except.map] at h
      | ok found =>
          simp only [hparse, Except.mapError, Functor.map, Except.map,
            Option.some.injEq] at h
          exact h ▸ (Document.parse_sound hparse).checked
  | document content =>
      cases hnormal : content.normalize with
      | error error => simp [hnormal, Functor.map, Except.map] at h
      | ok found =>
          simp only [hnormal, Functor.map, Except.map, Option.some.injEq] at h
          exact h ▸ (Document.normalize_sound hnormal).checked
  | tree content =>
      simp only at h
      simpa [Source.Printable, Tree.Printable, Tree.definitions, h] using hsource

namespace Tree

theorem new_printable : Printable .new := by
  intro definition hdefinition
  cases hdefinition

theorem ofDocument_printable {definitions : List Definition} (h : Checked definitions) :
    Printable (ofDocument ⟨definitions⟩) := h

theorem ofSource?_printable {source : Source} {tree : Tree} (hsource : source.Printable)
    (h : ofSource? source = some tree) : tree.Printable := by
  obtain ⟨document, hdocument, rfl⟩ := Option.map_eq_some_iff.mp h
  exact Source.document?_checked hsource hdocument

theorem append_printable {tree : Tree} {source : Source} (htree : tree.Printable)
    (hsource : source.Printable) : (tree.append source).Printable :=
  Definition.mergeClosed_check.append htree fun _ => Source.document?_checked hsource

theorem emptyDocument_printable {seed : Option Source}
    (hseed : ∀ source, seed = some source → source.Printable) :
    (emptyDocument seed).Printable := by
  have hempty : Printable (ofDocument .empty) := new_printable
  cases seed with
  | none => exact hempty
  | some source => exact append_printable hempty (hseed source rfl)

theorem emptyObject_printable {name : String} (hname : isValidName name = true) :
    (emptyObject name).Printable := by
  intro definition hdefinition
  rw [List.mem_singleton.mp hdefinition]
  exact TypeDecl.check_eq_ok_iff.mpr ⟨hname, by simp, by simp [TypeBody.Checked]⟩

theorem replace_printable (tree : Tree) {source : Source} (hsource : source.Printable) :
    (tree.replace source).Printable := by
  unfold replace
  cases hdocument : source.document? with
  | none => exact new_printable
  | some document => exact Source.document?_checked hsource hdocument

theorem overlay_printable {tree : Tree} (definitions : Option (List Definition))
    (htree : tree.Printable) : (tree.overlay definitions).Printable := by
  unfold overlay
  split
  · exact htree
  · rename_i definitions
    split
    · rename_i text hprint
      exact ofDocument_printable
        (Document.check_eq_ok_iff.mp (Document.print_eq_ok_iff.mp hprint).1)
    · exact htree

theorem remove_printable {tree : Tree} (matcher : Matcher) (htree : tree.Printable) :
    (tree.remove matcher).2.Printable := by
  obtain ⟨document⟩ := tree
  cases document with
  | none => exact htree
  | some document =>
      intro definition hdefinition
      exact htree definition (List.mem_of_mem_eraseP hdefinition)

theorem consume_printable {tree source : Tree} (matcher : Matcher)
    (htree : tree.Printable) (hsource : source.Printable) :
    (tree.consume source matcher).1.Printable ∧
      (tree.consume source matcher).2.Printable := by
  refine ⟨Definition.mergeClosed_check.consume matcher htree hsource, ?_⟩
  have hrest := remove_printable matcher hsource
  unfold consume
  split
  · rename_i hremove
    rwa [hremove] at hrest
  · exact hsource

theorem consumeFrom_printable {tree : Tree} {source : Source} (matcher : Matcher)
    (htree : tree.Printable) (hsource : source.Printable) :
    (tree.consumeFrom source matcher).Printable :=
  Definition.mergeClosed_check.consumeFrom matcher htree fun _ =>
    Source.document?_checked hsource

/-- A tree that passes the checks is written, unless it has no document. -/
theorem Printable.print {tree : Tree} (h : tree.Printable) :
    (tree.document = none ∧ tree.print = .error .missingDocument) ∨
      ∃ document text, tree.document = some document ∧ tree.print = .ok text := by
  obtain ⟨document⟩ := tree
  cases document with
  | none => exact .inl ⟨rfl, rfl⟩
  | some document =>
      have hcheck : document.check = .ok () := Document.check_eq_ok_iff.mpr h
      exact .inr ⟨document, _, rfl, Document.print_eq_ok_iff.mpr ⟨hcheck, rfl⟩⟩

end Tree

/-! Runs. -/

namespace Forest

def Printable (forest : Forest) : Prop :=
  ∀ name, (forest name).Printable

theorem Printable.set {forest : Forest} {tree : Tree} (hforest : forest.Printable)
    (name : String) (htree : tree.Printable) : (forest.set name tree).Printable := by
  intro other
  unfold Forest.set
  split
  · exact htree
  · exact hforest other

theorem Printable.lookup {forest : Forest} (hforest : forest.Printable)
    (source : SourceRef) : (source.lookup forest).Printable := by
  cases source with
  | text content => trivial
  | document content => trivial
  | tree name => exact hforest name

end Forest

/-- Objects without fields are made for root types only. -/
def Step.IsOffered : Step → Prop
  | .emptyObject name => name ∈ [queryType, mutationType, subscriptionType]
  | _ => True

theorem isValidName_rootType {name : String}
    (h : name ∈ [queryType, mutationType, subscriptionType]) :
    isValidName name = true := by
  simp only [List.mem_cons, List.not_mem_nil, or_false] at h
  rcases h with rfl | rfl | rfl <;> decide

theorem Step.load_printable {forest : Forest} {result : Except SourceError Tree}
    (name : String) (hforest : forest.Printable)
    (hresult : ∀ tree, result = .ok tree → tree.Printable) :
    (Step.load forest name result).1.Printable := by
  cases result with
  | error error => exact hforest
  | ok tree => exact hforest.set name (hresult tree rfl)

theorem Step.apply_printable {forest : Forest} {step : Step} (name : String)
    (hforest : forest.Printable) (hoffered : step.IsOffered) :
    (step.apply forest name).1.Printable := by
  cases step with
  | reset => exact hforest.set name Tree.new_printable
  | read text =>
      refine Step.load_printable name hforest ?_
      intro tree htree
      cases hparse : Document.parse text with
      | error error => simp [Tree.ofText, hparse, Except.mapError, Functor.map, Except.map] at htree
      | ok document =>
          simp only [Tree.ofText, hparse, Except.mapError, Functor.map, Except.map,
            Except.ok.injEq] at htree
          exact htree ▸ (Document.parse_sound hparse).checked
  | normalize document =>
      refine Step.load_printable name hforest ?_
      intro tree htree
      cases hnormal : document.normalize with
      | error error => simp [Tree.normalized, hnormal, Functor.map, Except.map] at htree
      | ok result =>
          simp only [Tree.normalized, hnormal, Functor.map, Except.map,
            Except.ok.injEq] at htree
          exact htree ▸ (Document.normalize_sound hnormal).checked
  | build source =>
      simp only [Step.apply]
      split
      · rename_i tree htree
        exact hforest.set name (Tree.ofSource?_printable (hforest.lookup source) htree)
      · exact hforest
  | emptyDocument seed =>
      refine hforest.set name (Tree.emptyDocument_printable ?_)
      intro source hsource
      obtain ⟨reference, _, rfl⟩ := Option.map_eq_some_iff.mp hsource
      exact hforest.lookup reference
  | emptyObject object =>
      exact hforest.set name (Tree.emptyObject_printable (isValidName_rootType hoffered))
  | replace source =>
      exact hforest.set name (Tree.replace_printable _ (hforest.lookup source))
  | overlay definitions =>
      exact hforest.set name (Tree.overlay_printable definitions (hforest name))
  | append source =>
      exact hforest.set name (Tree.append_printable (hforest name) (hforest.lookup source))
  | consume other matcher =>
      obtain ⟨htree, hrest⟩ :=
        Tree.consume_printable matcher (hforest name) (hforest other)
      exact (hforest.set other hrest).set name htree
  | consumeFrom source matcher =>
      exact hforest.set name
        (Tree.consumeFrom_printable matcher (hforest name) (hforest.lookup source))
  | remove matcher =>
      exact hforest.set name (Tree.remove_printable matcher (hforest name))
  | take => exact hforest.set name Tree.new_printable

theorem Forest.run?_printable {forest result : Forest} {steps : List (String × Step)}
    (hforest : forest.Printable) (hoffered : ∀ step ∈ steps, step.2.IsOffered)
    (hrun : forest.run? steps = some result) : result.Printable := by
  induction steps generalizing forest with
  | nil =>
      cases hrun
      exact hforest
  | cons step steps ih =>
      obtain ⟨hstep, hsteps⟩ := List.forall_mem_cons.mp hoffered
      rw [Forest.run?, List.foldlM_cons] at hrun
      obtain ⟨middle, hmiddle, hrest⟩ := Option.bind_eq_some_iff.mp hrun
      obtain ⟨found, hfound, rfl⟩ := Option.map_eq_some_iff.mp hmiddle
      have happlied : step.2.apply forest step.1 = found := by
        unfold Forest.step? at hfound
        split at hfound
        · cases hfound
        · exact Option.some.inj hfound
      refine ih ?_ hsteps hrest
      rw [← happlied]
      exact Step.apply_printable step.1 hforest hstep

/-- Every tree that a run reaches can be written, or it has no document. -/
theorem Forest.run?_print (steps : List (String × Step)) (forest : Forest)
    (hoffered : ∀ step ∈ steps, step.2.IsOffered)
    (hrun : Forest.empty.run? steps = some forest) (name : String) :
    ((forest name).document = none ∧ (forest name).print = .error .missingDocument) ∨
      ∃ document text, (forest name).document = some document ∧
        (forest name).print = .ok text := by
  have hempty : Forest.empty.Printable := fun _ => Tree.new_printable
  exact (Forest.run?_printable hempty hoffered hrun name).print

/-- An overlay whose name is not valid, an append and a move. -/
def refusedOverlay : List (String × Step) :=
  [("a", .emptyObject queryType),
    ("b", .overlay (some [.directive {
      pos := .start, description := none, name := "no name", arguments := [],
      repeatable := false, locations := [.query] }])),
    ("b", .append (.tree "a")),
    ("c", .emptyDocument none),
    ("c", .consume "b" (.name queryType))]

theorem Forest.run?_print_refusedOverlay :
    ∃ forest, Forest.empty.run? refusedOverlay = some forest ∧
      (((forest "c").document = none ∧
          (forest "c").print = .error .missingDocument) ∨
        ∃ document text, (forest "c").document = some document ∧
          (forest "c").print = .ok text) := by
  have hoffered : ∀ step ∈ refusedOverlay, step.2.IsOffered := by
    simp [refusedOverlay, Step.IsOffered]
  exact ⟨_, rfl, Forest.run?_print refusedOverlay _ hoffered rfl "c"⟩

end SchemaLoom
