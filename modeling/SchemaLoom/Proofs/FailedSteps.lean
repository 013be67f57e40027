import SchemaLoom.Proofs.Histories

namespace SchemaLoom

/-! Steps that fail.  Nothing is changed before all that a step needs is at hand, so a
step that fails leaves every tree as it was, and a run goes on as if that step had
not been there. -/

/-- A text that cannot be read, a document without a normal form, or a tree without a
document. -/
def Source.isUnusable : Source → Bool
  | .text content => !(Document.parse content).isOk
  | .document content => !content.normalize.isOk
  | .tree content => content.document.isNone

def Source.definitions (source : Source) : List Definition :=
  (source.document?.map Document.definitions).getD []

/-- Whether a step fails on the tree of a name: its source is of no use, there is
nothing in it that the matcher selects, there is no tree to merge into, or what is
laid over the tree cannot be written. -/
def Step.fails (forest : Forest) (name : String) : Step → Bool
  | .append source => (source.lookup forest).isUnusable
  | .consumeFrom source matcher =>
      (source.lookup forest).isUnusable || (forest name).document.isNone ||
        !(source.lookup forest).definitions.any matcher.selects
  | .consume other matcher =>
      (forest name).document.isNone || !(forest other).definitions.any matcher.selects
  | .remove matcher => !(forest name).definitions.any matcher.selects
  | .overlay (some definitions) => !(Document.print ⟨definitions⟩).isOk
  | _ => false

def Moment.fails (moment : Moment) : Bool :=
  moment.step.fails moment.before moment.name

theorem Source.isUnusable_iff {source : Source} :
    source.isUnusable = true ↔ source.document? = none := by
  cases source with
  | text content =>
      rw [document?_eq_parse, isUnusable]
      cases Document.parse content <;> simp [Except.toOption, Except.isOk, Except.toBool]
  | document content =>
      rw [document?_eq_normalize, isUnusable]
      cases content.normalize <;> simp [Except.toOption, Except.isOk, Except.toBool]
  | tree content => rw [document?_eq_tree, isUnusable, Option.isNone_iff_eq_none]

namespace Tree

variable {tree source : Tree} {matcher : Matcher}

theorem find?_eq_none (h : tree.definitions.any matcher.selects = false) :
    tree.find? matcher = none := by
  simpa [find?] using h

theorem remove_of_none (h : tree.definitions.any matcher.selects = false) :
    (tree.remove matcher).2 = tree := by
  obtain ⟨document⟩ := tree
  cases document with
  | none => rfl
  | some document =>
      have hnone : ∀ definition ∈ document.definitions, ¬matcher.selects definition = true :=
        List.any_eq_false.mp h
      simp only [remove, Option.map_some, List.eraseP_of_forall_not hnone]

/-- A move needs a document to move to, and something to move. -/
theorem consume_of_none
    (h : tree.document = none ∨ source.definitions.any matcher.selects = false) :
    tree.consume source matcher = (tree, source) := by
  rcases h with htree | hsource
  · simp [consume, htree]
  · simp [consume, remove, find?_eq_none hsource]

theorem append_of_isUnusable {source : Source} (h : source.isUnusable = true) :
    tree.append source = tree := by
  rw [append, Source.isUnusable_iff.mp h]

theorem consumeFrom_of_none {source : Source}
    (h : source.isUnusable = true ∨ tree.document = none ∨
      source.definitions.any matcher.selects = false) :
    tree.consumeFrom source matcher = tree := by
  unfold consumeFrom ofSource?
  cases hdocument : source.document? with
  | none => rfl
  | some document =>
      have hnone : tree.document = none ∨
          (ofDocument document).definitions.any matcher.selects = false := by
        rcases h with hsource | htree | hsource
        · rw [Source.isUnusable_iff.mp hsource] at hdocument
          cases hdocument
        · exact .inl htree
        · simp only [Source.definitions, hdocument] at hsource
          exact .inr hsource
      exact congrArg Prod.fst (consume_of_none hnone)

theorem overlay_of_not_isOk {definitions : List Definition}
    (h : (Document.print ⟨definitions⟩).isOk = false) :
    tree.overlay (some definitions) = tree := by
  rw [overlay]
  cases hprint : Document.print ⟨definitions⟩ with
  | error error => rfl
  | ok text =>
      rw [hprint] at h
      cases h

end Tree

/-- A step that fails leaves all trees as they are. -/
theorem Step.apply_of_fails {forest : Forest} {name : String} {step : Step}
    (h : step.fails forest name = true) : (step.apply forest name).1 = forest := by
  cases step with
  | append source =>
      simp only [apply, change, Tree.append_of_isUnusable h, Forest.set_self]
  | consumeFrom source matcher =>
      simp only [fails, Bool.or_eq_true, Option.isNone_iff_eq_none, Bool.not_eq_true',
        or_assoc] at h
      simp only [apply, change, Tree.consumeFrom_of_none h, Forest.set_self]
  | consume other matcher =>
      simp only [fails, Bool.or_eq_true, Option.isNone_iff_eq_none, Bool.not_eq_true'] at h
      simp only [apply, change, Tree.consume_of_none h, Forest.set_self]
  | remove matcher =>
      simp only [fails, Bool.not_eq_true'] at h
      simp only [apply, Tree.remove_of_none h, Forest.set_self]
  | overlay definitions =>
      cases definitions with
      | none => cases h
      | some definitions =>
          simp only [fails, Bool.not_eq_true'] at h
          simp only [apply, change, Tree.overlay_of_not_isOk h, Forest.set_self]
  | _ => cases h

theorem Moment.after_of_fails {moment : Moment} (h : moment.fails = true) :
    moment.after = moment.before :=
  Step.apply_of_fails h

/-- The moments whose steps did not fail. -/
def succeeding (moments : List Moment) : List Moment :=
  moments.filter fun moment => !moment.fails

theorem succeeding_cons (moment : Moment) (later : List Moment) :
    succeeding (moment :: later) =
      if moment.fails then succeeding later else moment :: succeeding later := by
  rw [succeeding, List.filter_cons]
  cases moment.fails <;> rfl

namespace Forest

variable {forest : Forest} {steps : List (String × Step)} {moments : List Moment}

/-- Without the steps that failed, the run finds the same trees at every other step
and ends with the same trees. -/
theorem history?_succeeding (h : forest.history? steps = some moments) :
    forest.history? ((succeeding moments).map Moment.action) = some (succeeding moments) ∧
      forest.run? ((succeeding moments).map Moment.action) = forest.run? steps := by
  induction steps generalizing forest moments with
  | nil =>
      cases h
      exact ⟨rfl, rfl⟩
  | cons first rest ih =>
      let moment : Moment := ⟨forest, first.1, first.2⟩
      obtain ⟨htorn, later, hlater, rfl⟩ := history?_cons_eq_some moment h
      obtain ⟨hhistory, hrun⟩ := ih hlater
      have hgoes : ¬moment.step.isTorn moment.before = true := Bool.eq_false_iff.mp htorn
      have hrun_cons : ∀ rest, forest.run? (moment.action :: rest) = moment.after.run? rest :=
        fun rest => (run?_cons moment rest).trans (if_neg hgoes)
      have hhistory_cons : ∀ rest, forest.history? (moment.action :: rest) =
          (moment.after.history? rest).map (moment :: ·) :=
        fun rest => (history?_cons moment rest).trans (if_neg hgoes)
      have hwhole : forest.run? (first :: rest) = moment.after.run? rest := hrun_cons rest
      rw [hwhole, ← hrun, succeeding_cons]
      split
      · rename_i hfails
        rw [Moment.after_of_fails hfails] at hhistory ⊢
        exact ⟨hhistory, rfl⟩
      · rw [List.map_cons, hhistory_cons, hhistory, hrun_cons]
        exact ⟨rfl, rfl⟩

/-- The steps that fail in a run can be left out of it: every other step finds and
leaves the trees that it found and left, and the run ends with the same trees. -/
theorem history?_without_failures (h : forest.history? steps = some moments) :
    moments.map Moment.action = steps ∧
      forest.history? ((succeeding moments).map Moment.action) = some (succeeding moments) ∧
      forest.run? ((succeeding moments).map Moment.action) = forest.run? steps :=
  ⟨map_action_history? h, history?_succeeding h⟩

/-- Three steps that change trees, and between them steps that fail: a text that is no
document, moves to a tree without a document and from where nothing is selected, and an
overlay whose name is not valid. -/
def interruptedMoves : List (String × Step) :=
  [("a", .emptyObject queryType),
    ("b", .append (.text "type")),
    ("b", .consume "a" (.name queryType)),
    ("a", .remove (.name mutationType)),
    ("b", .emptyDocument none),
    ("b", .consumeFrom (.tree "a") (.name mutationType)),
    ("b", .overlay (some [.directive {
      pos := .start, description := none, name := "no name", arguments := [],
      repeatable := false, locations := [.query] }])),
    ("b", .consume "a" (.name queryType)),
    ("b", .append (.tree "c"))]

theorem history?_without_failures_interruptedMoves :
    ∃ moments, Forest.empty.history? interruptedMoves = some moments ∧
      (succeeding moments).map Moment.name = ["a", "b", "b"] ∧
      moments.map Moment.action = interruptedMoves ∧
      Forest.empty.history? ((succeeding moments).map Moment.action) =
        some (succeeding moments) ∧
      Forest.empty.run? ((succeeding moments).map Moment.action) =
        Forest.empty.run? interruptedMoves := by
  have hmoves : (Forest.empty.history? interruptedMoves).any
      (fun moments => (succeeding moments).map Moment.name = ["a", "b", "b"]) = true := by
    decide +kernel
  cases hhistory : Forest.empty.history? interruptedMoves with
  | none =>
      rw [hhistory] at hmoves
      cases hmoves
  | some moments =>
      rw [hhistory] at hmoves
      exact ⟨moments, rfl, of_decide_eq_true hmoves, history?_without_failures hhistory⟩

end Forest

end SchemaLoom
