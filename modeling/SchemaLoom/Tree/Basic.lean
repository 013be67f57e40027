import SchemaLoom.Document.Merge
import SchemaLoom.Document.Normal
import SchemaLoom.Matcher

namespace SchemaLoom

/-! Trees hold a document or nothing.  Operations that change a tree never leave
it with a document that cannot be written: when their input is of no use, the
tree stays as it is. -/

structure Tree where
  document : Option Document
  deriving Repr

/-- What a tree can be built from or merged with. -/
inductive Source where
  | text (content : String)
  | document (content : Document)
  | tree (content : Tree)
  deriving Repr

/-- The document of a source.  Text is read, a document is brought to normal form,
and the document of a tree is taken as it is. -/
def Source.resolve : Source → Except SourceError (Option Document)
  | .text content => some <$> (Document.parse content).mapError .parse
  | .document content => some <$> content.normalize
  | .tree content => .ok content.document

/-- The document of a source that has one. -/
def Source.document? (source : Source) : Option Document :=
  match source.resolve with
  | .ok found => found
  | .error _ => none

theorem Source.document?_eq_parse (content : String) :
    (Source.text content).document? = (Document.parse content).toOption := by
  simp only [document?, resolve]
  cases Document.parse content <;> rfl

theorem Source.document?_eq_normalize (content : Document) :
    (Source.document content).document? = content.normalize.toOption := by
  simp only [document?, resolve]
  cases content.normalize <;> rfl

theorem Source.document?_eq_tree (content : Tree) :
    (Source.tree content).document? = content.document := rfl

namespace Tree

/-- A tree without a document. -/
def new : Tree := ⟨none⟩

def ofDocument (document : Document) : Tree := ⟨some document⟩

def definitions (tree : Tree) : List Definition :=
  (tree.document.map Document.definitions).getD []

def ofText (text : String) : Except SourceError Tree :=
  ofDocument <$> (Document.parse text).mapError .parse

/-- A tree with the normal form of a document. -/
def normalized (document : Document) : Except SourceError Tree :=
  ofDocument <$> document.normalize

def ofSource? (source : Source) : Option Tree :=
  source.document?.map ofDocument

/-! Search by name. -/

def find? (tree : Tree) (matcher : Matcher) : Option Definition :=
  tree.definitions.find? matcher.selects

def findIndex? (tree : Tree) (matcher : Matcher) : Option Nat :=
  tree.definitions.findIdx? matcher.selects

/-- Takes the first definition that is selected out of the tree. -/
def remove (tree : Tree) (matcher : Matcher) : Option Definition × Tree :=
  (tree.find? matcher,
    ⟨tree.document.map fun document =>
      { document with definitions := document.definitions.eraseP matcher.selects }⟩)

/-- Adds an entry behind the others unless its name is listed already. -/
def listFirst (listed : List (String × Nat × Definition))
    (entry : Nat × Definition) : List (String × Nat × Definition) :=
  match entry.2.name? with
  | none => listed
  | some name =>
      if listed.any fun known => known.1 == name then listed
      else listed ++ [(name, entry)]

/-- The definitions by name, with their place in the document.  Of definitions
that share a name the first is listed. -/
def outline (tree : Tree) : List (String × Nat × Definition) :=
  (tree.definitions.zipIdx.map Prod.swap).foldl listFirst []

/-! Changes. -/

/-- Merges every definition of a list, in order, into the one with its key. -/
def appendAll (definitions incoming : List Definition) : List Definition :=
  (incoming.foldl Appending.step (.start definitions)).held

def append (tree : Tree) (source : Source) : Tree :=
  match source.document? with
  | none => tree
  | some incoming => ofDocument ⟨appendAll tree.definitions incoming.definitions⟩

/-- A tree with an empty document, to which the seed is appended. -/
def emptyDocument (seed : Option Source) : Tree :=
  match seed with
  | none => ofDocument .empty
  | some source => (ofDocument .empty).append source

/-- A tree that holds one object without fields. -/
def emptyObject (name : String) : Tree :=
  ofDocument ⟨[.type {
    form := .definition none
    pos := .start
    name
    directives := []
    body := .composite .object [] [] }]⟩

/-- Replaces the document by that of a source; a source that is of no use leaves
none. -/
def replace (_ : Tree) (source : Source) : Tree :=
  ⟨source.document?⟩

/-- Puts definitions in the place of the document's own, if they can be written.
Without definitions the document stays. -/
def overlay (tree : Tree) (definitions : Option (List Definition)) : Tree :=
  match definitions with
  | none => tree
  | some definitions =>
      match Document.print ⟨definitions⟩ with
      | .ok _ => ofDocument ⟨definitions⟩
      | .error _ => tree

/-- Moves the first definition that is selected out of the source, and merges it
into the first one selected here; results in this tree and the source.  Nothing
happens to a tree without a document. -/
def consume (tree source : Tree) (matcher : Matcher) : Tree × Tree :=
  match tree.document, source.remove matcher with
  | some document, (some definition, rest) =>
      (ofDocument ⟨mergeInto .keepExisting matcher.selects definition
        document.definitions⟩, rest)
  | _, _ => (tree, source)

def consumeFrom (tree : Tree) (source : Source) (matcher : Matcher) : Tree :=
  match ofSource? source with
  | none => tree
  | some other => (tree.consume other matcher).1

def print (tree : Tree) : Except PrintError String :=
  match tree.document with
  | none => .error .missingDocument
  | some document => document.print

end Tree

/-! Root types are the types whose definitions are brought together first. -/

def queryType : String := "Query"

def mutationType : String := "Mutation"

def subscriptionType : String := "Subscription"

/-- Merges one more tree: root types are folded in one by one, then all that is
left is appended. -/
def Tree.mergeWith (roots : List String) (merged tree : Tree) : Tree :=
  let (merged, rest) := roots.foldl
    (fun (trees : Tree × Tree) root => trees.1.consume trees.2 (.name root))
    (merged, tree)
  merged.append (.tree rest)

def Tree.mergeAll (trees : List Tree) (roots : List String) : Tree :=
  trees.foldl (Tree.mergeWith roots) (Tree.emptyDocument none)

end SchemaLoom
