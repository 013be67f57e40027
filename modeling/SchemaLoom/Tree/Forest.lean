import SchemaLoom.Tree.Basic

namespace SchemaLoom

/-! Named trees, and the steps that change them.  A name that no step has used
stands for a tree without a document. -/

abbrev Forest := String → Tree

namespace Forest

def empty : Forest := fun _ => .new

def set (forest : Forest) (name : String) (tree : Tree) : Forest :=
  fun other => if other = name then tree else forest other

end Forest

/-- A source that may refer to a tree by its name. -/
inductive SourceRef where
  | text (content : String)
  | document (content : Document)
  | tree (name : String)
  deriving Repr

def SourceRef.lookup (forest : Forest) : SourceRef → Source
  | .text content => .text content
  | .document content => .document content
  | .tree name => .tree (forest name)

inductive Step where
  | reset
  | read (text : String)
  | normalize (document : Document)
  | build (source : SourceRef)
  | emptyDocument (seed : Option SourceRef)
  | emptyObject (name : String)
  | replace (source : SourceRef)
  | overlay (definitions : Option (List Definition))
  | append (source : SourceRef)
  | consume (other : String) (matcher : Matcher)
  | consumeFrom (source : SourceRef) (matcher : Matcher)
  | remove (matcher : Matcher)
  | take
  deriving Repr

/-- What a step reports besides the trees it changed. -/
inductive Reply where
  | silent
  | loaded
  | refused (error : SourceError)
  | built (success : Bool)
  | removed (definition : Option Definition)
  | taken (document : Option Document)
  deriving Repr

namespace Step

/-- The source that a step reads. -/
def source? (forest : Forest) : Step → Option Source
  | .read text => some (.text text)
  | .normalize document => some (.document document)
  | .build source => some (source.lookup forest)
  | .emptyDocument seed => seed.map (·.lookup forest)
  | .replace source => some (source.lookup forest)
  | .append source => some (source.lookup forest)
  | .consumeFrom source _ => some (source.lookup forest)
  | _ => none

/-- Whether reading the step's source meets a block string that is cut inside a
character. -/
def isTorn (forest : Forest) (step : Step) : Bool :=
  (step.source? forest).any fun source =>
    match source.resolve with
    | .error error => error == .parse .tornMargin
    | .ok _ => false

def load (forest : Forest) (name : String) :
    Except SourceError Tree → Forest × Reply
  | .ok tree => (forest.set name tree, .loaded)
  | .error error => (forest, .refused error)

def change (forest : Forest) (name : String) (tree : Tree) : Forest × Reply :=
  (forest.set name tree, .silent)

/-- Applies a step to the tree of a name. -/
def apply (forest : Forest) (name : String) : Step → Forest × Reply
  | .reset => change forest name .new
  | .read text => load forest name (Tree.ofText text)
  | .normalize document => load forest name (Tree.normalized document)
  | .build source =>
      match Tree.ofSource? (source.lookup forest) with
      | some tree => (forest.set name tree, .built true)
      | none => (forest, .built false)
  | .emptyDocument seed =>
      change forest name (.emptyDocument (seed.map (·.lookup forest)))
  | .emptyObject object => change forest name (.emptyObject object)
  | .replace source => change forest name ((forest name).replace (source.lookup forest))
  | .overlay definitions => change forest name ((forest name).overlay definitions)
  | .append source => change forest name ((forest name).append (source.lookup forest))
  | .consume other matcher =>
      let (tree, rest) := (forest name).consume (forest other) matcher
      change (forest.set other rest) name tree
  | .consumeFrom source matcher =>
      change forest name ((forest name).consumeFrom (source.lookup forest) matcher)
  | .remove matcher =>
      let (definition, tree) := (forest name).remove matcher
      (forest.set name tree, .removed definition)
  | .take => (forest.set name .new, .taken (forest name).document)

end Step

/-- One step of a run, which ends at a torn block string. -/
def Forest.step? (forest : Forest) (name : String) (step : Step) :
    Option (Forest × Reply) :=
  if step.isTorn forest then none else some (step.apply forest name)

/-- A run of steps, each on the tree of its name. -/
def Forest.run? (forest : Forest) (steps : List (String × Step)) : Option Forest :=
  steps.foldlM
    (fun forest step => (forest.step? step.1 step.2).map Prod.fst) forest

end SchemaLoom
