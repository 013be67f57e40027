import SchemaLoom.Proofs.Histories
import SchemaLoom.Proofs.UnplacedTrees
import Mathlib.Data.List.Forall2

namespace SchemaLoom

/-! Positions along runs of steps.  Erasing the positions of all inputs changes nothing
in the outputs but their positions, so two runs whose inputs differ in positions only
cannot be told apart. -/

/-! Sources. -/

def Source.unplaced : Source → Source
  | .text content => .text content
  | .document content => .document content.unplaced
  | .tree content => .tree content.unplaced

namespace Source

theorem document?_unplaced (source : Source) :
    source.unplaced.document?.map Document.unplaced =
      source.document?.map Document.unplaced := by
  cases source with
  | text content => rfl
  | document content =>
      rw [unplaced, document?_eq_normalize, document?_eq_normalize,
        Document.normalize_unplaced]
  | tree content => exact congrArg Tree.document content.unplaced_unplaced

end Source

namespace Tree

/-- Apart from positions, what an append results in is given by the tree and the
definitions of the source without positions. -/
theorem unplaced_append (tree : Tree) (source : Source) :
    (tree.append source).unplaced =
      match source.document?.map Document.unplaced with
      | none => tree.unplaced
      | some incoming =>
          ofDocument ⟨appendAll tree.unplaced.definitions incoming.definitions⟩ := by
  unfold append
  cases source.document? with
  | none => rfl
  | some incoming =>
      simp only [Option.map_some, unplaced_ofDocument, Document.unplaced,
        definitions_unplaced, appendAll_unplaced]

theorem append_unplaced (tree : Tree) (source : Source) :
    (tree.unplaced.append source.unplaced).unplaced = (tree.append source).unplaced := by
  rw [unplaced_append, unplaced_append, source.document?_unplaced, unplaced_unplaced]

theorem unplaced_consumeFrom (tree : Tree) (source : Source) (matcher : Matcher) :
    (tree.consumeFrom source matcher).unplaced =
      match source.document?.map Document.unplaced with
      | none => tree.unplaced
      | some document => (tree.unplaced.consume (ofDocument document) matcher).1 := by
  unfold consumeFrom ofSource?
  cases source.document? with
  | none => rfl
  | some document =>
      simp only [Option.map_some, ← unplaced_ofDocument, consume_unplaced]

theorem consumeFrom_unplaced (tree : Tree) (source : Source) (matcher : Matcher) :
    (tree.unplaced.consumeFrom source.unplaced matcher).unplaced =
      (tree.consumeFrom source matcher).unplaced := by
  rw [unplaced_consumeFrom, unplaced_consumeFrom, source.document?_unplaced,
    unplaced_unplaced]

theorem ofSource?_unplaced (source : Source) :
    (ofSource? source.unplaced).map unplaced = (ofSource? source).map unplaced := by
  have hsame := congrArg (Option.map ofDocument) source.document?_unplaced
  simpa only [ofSource?, Option.map_map, Function.comp_def, unplaced_ofDocument] using hsame

theorem replace_unplaced (tree : Tree) (source : Source) :
    (tree.unplaced.replace source.unplaced).unplaced = (tree.replace source).unplaced :=
  congrArg Tree.mk source.document?_unplaced

theorem emptyDocument_unplaced (seed : Option Source) :
    (emptyDocument (seed.map Source.unplaced)).unplaced = (emptyDocument seed).unplaced := by
  cases seed with
  | none => rfl
  | some source => exact append_unplaced (ofDocument .empty) source

end Tree

/-! Steps. -/

def Forest.unplaced (forest : Forest) : Forest :=
  fun name => (forest name).unplaced

def SourceRef.unplaced : SourceRef → SourceRef
  | .text content => .text content
  | .document content => .document content.unplaced
  | .tree name => .tree name

def Step.unplaced : Step → Step
  | .normalize document => .normalize document.unplaced
  | .build source => .build source.unplaced
  | .emptyDocument seed => .emptyDocument (seed.map SourceRef.unplaced)
  | .replace source => .replace source.unplaced
  | .overlay definitions => .overlay (definitions.map (List.map Definition.unplaced))
  | .append source => .append source.unplaced
  | .consumeFrom source matcher => .consumeFrom source.unplaced matcher
  | step => step

def Reply.unplaced : Reply → Reply
  | .removed definition => .removed (definition.map Definition.unplaced)
  | .taken document => .taken (document.map Document.unplaced)
  | reply => reply

theorem Forest.unplaced_set (forest : Forest) (name : String) (tree : Tree) :
    (forest.set name tree).unplaced = forest.unplaced.set name tree.unplaced := by
  funext other
  unfold Forest.unplaced Forest.set
  split <;> rfl

theorem Forest.unplaced_unplaced (forest : Forest) :
    forest.unplaced.unplaced = forest.unplaced := by
  funext name
  exact (forest name).unplaced_unplaced

theorem SourceRef.lookup_unplaced (forest : Forest) (source : SourceRef) :
    source.unplaced.lookup forest.unplaced = (source.lookup forest).unplaced := by
  cases source <;> rfl

namespace Step

theorem source?_unplaced (forest : Forest) (step : Step) :
    step.unplaced.source? forest.unplaced = (step.source? forest).map Source.unplaced := by
  cases step with
  | build source | replace source | append source | consumeFrom source matcher =>
      exact congrArg some (source.lookup_unplaced forest)
  | emptyDocument seed =>
      cases seed with
      | none => rfl
      | some source => exact congrArg some (source.lookup_unplaced forest)
  | _ => rfl

theorem isTorn_unplaced (forest : Forest) (step : Step) :
    step.unplaced.isTorn forest.unplaced = step.isTorn forest := by
  rw [isTorn, isTorn, source?_unplaced]
  cases step.source? forest with
  | none => rfl
  | some source =>
      cases source with
      | text content => rfl
      | document content =>
          simp only [Option.map_some, Option.any_some, Source.unplaced, Source.resolve,
            Document.normalize_unplaced]
      | tree content => rfl

/-- What a step leaves and says, without positions. -/
def unplacedResult (result : Forest × Reply) : Forest × Reply :=
  (result.1.unplaced, result.2.unplaced)

theorem unplacedResult_set {tree other : Tree} {reply reply' : Reply} (forest : Forest)
    (name : String) (htree : tree.unplaced = other.unplaced)
    (hreply : reply.unplaced = reply'.unplaced) :
    unplacedResult (forest.unplaced.set name tree, reply) =
      unplacedResult (forest.set name other, reply') := by
  simp only [unplacedResult, Forest.unplaced_set, Forest.unplaced_unplaced, htree, hreply]

theorem unplacedResult_keep (forest : Forest) (reply : Reply) :
    unplacedResult (forest.unplaced, reply) = unplacedResult (forest, reply) := by
  simp only [unplacedResult, Forest.unplaced_unplaced]

theorem load_unplaced (forest : Forest) (name : String) (result : Except SourceError Tree) :
    unplacedResult (load forest.unplaced name result) =
      unplacedResult (load forest name result) := by
  cases result with
  | error error => exact unplacedResult_keep forest (.refused error)
  | ok tree => exact unplacedResult_set forest name rfl rfl

/-- A step on trees without positions does what the step does. -/
theorem apply_unplaced (forest : Forest) (name : String) (step : Step) :
    unplacedResult (step.unplaced.apply forest.unplaced name) =
      unplacedResult (step.apply forest name) := by
  cases step with
  | reset | emptyObject object => exact unplacedResult_set forest name rfl rfl
  | read text => exact load_unplaced forest name _
  | normalize document =>
      simp only [unplaced, apply, Tree.normalized, Document.normalize_unplaced]
      exact load_unplaced forest name _
  | build source =>
      have hsame := Tree.ofSource?_unplaced (source.lookup forest)
      simp only [unplaced, apply, SourceRef.lookup_unplaced]
      cases hfound : Tree.ofSource? (source.lookup forest) with
      | none =>
          rw [hfound] at hsame
          rw [Option.map_eq_none_iff.mp hsame]
          exact unplacedResult_keep forest (.built false)
      | some tree =>
          rw [hfound] at hsame
          obtain ⟨other, hother, htree⟩ := Option.map_eq_some_iff.mp hsame
          rw [hother]
          exact unplacedResult_set forest name htree rfl
  | emptyDocument seed =>
      have hsame := Tree.emptyDocument_unplaced (seed.map (·.lookup forest))
      refine unplacedResult_set forest name ?_ rfl
      simpa only [Option.map_map, Function.comp_def, SourceRef.lookup_unplaced] using hsame
  | replace source =>
      simp only [unplaced, apply, change, SourceRef.lookup_unplaced]
      exact unplacedResult_set forest name (Tree.replace_unplaced _ _) rfl
  | overlay definitions =>
      refine unplacedResult_set forest name ?_ rfl
      rw [Forest.unplaced, Tree.overlay_unplaced, Tree.unplaced_unplaced]
  | append source =>
      simp only [unplaced, apply, change, SourceRef.lookup_unplaced]
      exact unplacedResult_set forest name (Tree.append_unplaced _ _) rfl
  | consume other matcher =>
      have hmoved := (forest name).consume_unplaced (forest other) matcher
      simp only [unplaced, apply, change, Forest.unplaced, hmoved]
      simp only [unplacedResult, Forest.unplaced_set, Tree.unplaced_unplaced]
      exact congrArg (fun trees : Forest =>
        ((trees.set other _).set name _, Reply.silent)) forest.unplaced_unplaced
  | consumeFrom source matcher =>
      simp only [unplaced, apply, change, SourceRef.lookup_unplaced]
      exact unplacedResult_set forest name (Tree.consumeFrom_unplaced _ _ _) rfl
  | remove matcher =>
      have hremoved := (forest name).remove_unplaced matcher
      have hreply : ∀ definition : Option Definition,
          (Reply.removed (definition.map Definition.unplaced)).unplaced =
            (Reply.removed definition).unplaced := by
        intro definition
        simp only [Reply.unplaced, Option.map_map, Function.comp_def,
          Definition.unplaced_unplaced]
      have hstep : (unplaced (.remove matcher)).apply forest.unplaced name =
          (forest.unplaced.set name ((forest name).remove matcher).2.unplaced,
            .removed (((forest name).remove matcher).1.map Definition.unplaced)) := by
        simp only [unplaced, apply, Forest.unplaced, hremoved]
      rw [hstep]
      exact unplacedResult_set forest name (Tree.unplaced_unplaced _) (hreply _)
  | take =>
      refine unplacedResult_set forest name rfl ?_
      simp only [Reply.unplaced]
      exact congrArg (fun tree => Reply.taken tree.document)
        (Tree.unplaced_unplaced (forest name))

end Step

/-! What can be seen of a tree. -/

/-- Two trees that are alike in everything but positions. -/
structure Tree.LooksLike (tree other : Tree) : Prop where
  unplaced : tree.unplaced = other.unplaced
  print : tree.print = other.print
  length : tree.definitions.length = other.definitions.length
  findIndex? : ∀ matcher, tree.findIndex? matcher = other.findIndex? matcher
  find? : ∀ matcher, (tree.find? matcher).map Definition.unplaced =
    (other.find? matcher).map Definition.unplaced
  outline : tree.outline.map (fun entry => (entry.1, entry.2.1, entry.2.2.kind)) =
    other.outline.map fun entry => (entry.1, entry.2.1, entry.2.2.kind)

/-- Nothing that can be seen of a tree depends on positions. -/
theorem Tree.looksLike_of_unplaced {tree other : Tree} (h : tree.unplaced = other.unplaced) :
    tree.LooksLike other where
  unplaced := h
  print := by rw [← tree.print_unplaced, h, other.print_unplaced]
  length := by
    have hlength := congrArg (fun tree => tree.definitions.length) h
    simpa only [definitions_unplaced, List.length_map] using hlength
  findIndex? matcher := by
    rw [← tree.findIndex?_unplaced, h, other.findIndex?_unplaced]
  find? matcher := by rw [← tree.find?_unplaced, h, other.find?_unplaced]
  outline := by
    have houtline := congrArg
      (fun tree => tree.outline.map fun entry => (entry.1, entry.2.1, entry.2.2.kind)) h
    simpa only [outline_unplaced, List.map_map, Function.comp_def, unplacedEntry,
      Definition.kind_unplaced] using houtline

structure Moment.LooksLike (moment other : Moment) : Prop where
  trees : ∀ name, (moment.after name).LooksLike (other.after name)
  reply : moment.reply.unplaced = other.reply.unplaced

/-- One step, with its input at two sets of positions. -/
theorem Moment.looksLike_of_unplaced (moment other : Moment)
    (hbefore : moment.before.unplaced = other.before.unplaced)
    (hname : moment.name = other.name) (hstep : moment.step.unplaced = other.step.unplaced) :
    moment.LooksLike other ∧ moment.after.unplaced = other.after.unplaced := by
  have hresult : Step.unplacedResult (moment.step.apply moment.before moment.name) =
      Step.unplacedResult (other.step.apply other.before other.name) := by
    rw [← Step.apply_unplaced moment.before, hbefore, hname, hstep, Step.apply_unplaced]
  have hafter : moment.after.unplaced = other.after.unplaced := congrArg Prod.fst hresult
  refine ⟨⟨?_, congrArg Prod.snd hresult⟩, hafter⟩
  intro name
  exact Tree.looksLike_of_unplaced (congrFun hafter name)

/-- The same steps on the same names, with documents at other positions. -/
def SameActions (steps others : List (String × Step)) : Prop :=
  List.Forall₂ (fun action other => action.1 = other.1 ∧
    action.2.unplaced = other.2.unplaced) steps others

theorem rel_map_cons {moment other : Moment} (hfirst : moment.LooksLike other) :
    ∀ {later later' : Option (List Moment)},
      Option.Rel (List.Forall₂ Moment.LooksLike) later later' →
      Option.Rel (List.Forall₂ Moment.LooksLike) (later.map (moment :: ·))
        (later'.map (other :: ·))
  | _, _, .none => .none
  | _, _, .some hlater => .some (.cons hfirst hlater)

theorem Forest.history?_looksLike {forest other : Forest} {steps others : List (String × Step)}
    (hforest : forest.unplaced = other.unplaced) (hsteps : SameActions steps others) :
    Option.Rel (List.Forall₂ Moment.LooksLike) (forest.history? steps)
      (other.history? others) := by
  induction hsteps generalizing forest other with
  | nil => exact .some .nil
  | @cons first first' rest rest' hfirst _ ih =>
      let moment : Moment := ⟨forest, first.1, first.2⟩
      let moment' : Moment := ⟨other, first'.1, first'.2⟩
      obtain ⟨hlooks, hafter⟩ :=
        Moment.looksLike_of_unplaced moment moment' hforest hfirst.1 hfirst.2
      have htorn : moment.step.isTorn moment.before = moment'.step.isTorn moment'.before := by
        rw [← Step.isTorn_unplaced, ← moment'.step.isTorn_unplaced]
        exact congrArg₂ Step.isTorn hforest hfirst.2
      change Option.Rel _ (moment.before.history? (moment.action :: rest))
        (moment'.before.history? (moment'.action :: rest'))
      rw [history?_cons, history?_cons, htorn]
      split
      · exact .none
      · exact rel_map_cons hlooks (ih hafter)

/-- Positions are never seen.  Of two runs whose trees and documents differ in positions
only, both are torn or every step replies the same and leaves trees that look the
same; and documents that differ in positions only have one written form and one
normal form. -/
theorem positions_unseen :
    (∀ (forest other : Forest) (steps others : List (String × Step)),
      forest.unplaced = other.unplaced → SameActions steps others →
      Option.Rel (List.Forall₂ Moment.LooksLike) (forest.history? steps)
        (other.history? others)) ∧
    ∀ document other : Document, document.unplaced = other.unplaced →
      document.print = other.print ∧ document.normalize = other.normalize := by
  constructor
  · intro forest other steps others hforest hsteps
    exact Forest.history?_looksLike hforest hsteps
  · intro document other h
    rw [← document.print_unplaced, ← document.normalize_unplaced, h, other.print_unplaced,
      other.normalize_unplaced]
    exact ⟨rfl, rfl⟩

/-- A scalar with a directive, both at one position. -/
def scalarAt (pos : Pos) : Definition :=
  .type {
    form := .definition none, pos, name := "A", directives := [⟨pos, "d", []⟩]
    body := .scalar }

def forestAt (pos : Pos) : Forest :=
  Forest.empty.set "a" (.ofDocument ⟨[scalarAt pos]⟩)

def stepsAt (pos : Pos) : List (String × Step) :=
  [("b", .overlay (some [scalarAt pos])), ("b", .append (.document ⟨[scalarAt pos]⟩)),
    ("b", .consume "a" (.name "A")), ("b", .remove (.name "A"))]

theorem positions_unseen_scalarAt :
    (forestAt ⟨7, 3⟩).unplaced = (forestAt .start).unplaced ∧
      SameActions (stepsAt ⟨7, 3⟩) (stepsAt .start) ∧
      Option.Rel (List.Forall₂ Moment.LooksLike) ((forestAt ⟨7, 3⟩).history? (stepsAt ⟨7, 3⟩))
        ((forestAt .start).history? (stepsAt .start)) ∧
      Document.print ⟨[scalarAt ⟨7, 3⟩]⟩ = Document.print ⟨[scalarAt .start]⟩ ∧
      Document.normalize ⟨[scalarAt ⟨7, 3⟩]⟩ = Document.normalize ⟨[scalarAt .start]⟩ := by
  have hforest : (forestAt ⟨7, 3⟩).unplaced = (forestAt .start).unplaced := by
    rw [forestAt, forestAt, Forest.unplaced_set, Forest.unplaced_set]
    rfl
  have hsteps : SameActions (stepsAt ⟨7, 3⟩) (stepsAt .start) :=
    .cons ⟨rfl, rfl⟩ (.cons ⟨rfl, rfl⟩ (.cons ⟨rfl, rfl⟩ (.cons ⟨rfl, rfl⟩ .nil)))
  exact ⟨hforest, hsteps, positions_unseen.1 _ _ _ _ hforest hsteps,
    positions_unseen.2 _ _ rfl⟩

end SchemaLoom
