import SchemaLoom.Document.Kind

namespace SchemaLoom

/-! Merging one definition into another, which keeps its place.  Objects and
interfaces can be put together part by part; otherwise one of the two
definitions is chosen. -/

/-- What happens to two definitions that cannot be put together.  Under
`replaceWins` only definitions of one kind can be. -/
inductive Policy where
  | keepExisting
  | replaceWins
  deriving DecidableEq, Repr

inductive Outcome where
  | concatenated
  | kept
  | replaced
  deriving DecidableEq, Repr

/-- Whether the kinds of two definitions let their parts be put together.  Ours has to
be one whose fields are concatenated. -/
def Policy.joins (policy : Policy) (ours theirs : Kind) : Bool :=
  ours.strategy == .concatFields &&
    match policy with
    | .keepExisting => true
    | .replaceWins => ours == theirs

namespace Definition

/-- Our definition with the interfaces, directives and fields of theirs behind its
own, if both have such parts. -/
def concat? : Definition → Definition → Option Definition
  | .type ours, .type theirs =>
      match ours.body, theirs.body with
      | .composite sort interfaces fields, .composite _ interfaces' fields' =>
          some (.type { ours with
            directives := ours.directives ++ theirs.directives
            body := .composite sort (interfaces ++ interfaces') (fields ++ fields') })
      | _, _ => none
  | _, _ => none

def merge (policy : Policy) (ours theirs : Definition) : Outcome × Definition :=
  match (if policy.joins ours.kind theirs.kind then ours.concat? theirs else none),
      policy with
  | some joined, _ => (.concatenated, joined)
  | none, .keepExisting => (.kept, ours)
  | none, .replaceWins => (.replaced, theirs)

end Definition

/-! Within a document a definition is known by its name, or by its kind if it has
no name. -/

inductive Key where
  | named (name : String)
  | nameless (kind : Kind)
  deriving DecidableEq, Repr

def Definition.key (definition : Definition) : Key :=
  match definition.name? with
  | some name => .named name
  | none => .nameless definition.kind

/-- Merges a definition into the first one that is wanted, or puts it at the end
if none is. -/
def mergeInto (policy : Policy) (wanted : Definition → Bool) (incoming : Definition) :
    List Definition → List Definition
  | [] => [incoming]
  | held :: rest =>
      if wanted held then (held.merge policy incoming).2 :: rest
      else held :: mergeInto policy wanted incoming rest

/-- A list that definitions are appended to, and beside it the keys that are known to
be in it. -/
structure Appending where
  known : List Key
  held : List Definition

namespace Appending

def start (definitions : List Definition) : Appending :=
  ⟨definitions.map Definition.key, definitions⟩

/-- A definition whose key is not known is put at the end.  Any other one is merged
into the first of its key, or skipped if there is none. -/
def step (state : Appending) (incoming : Definition) : Appending :=
  if incoming.key ∈ state.known then
    match state.held.findIdx? fun ours => ours.key = incoming.key with
    | some place =>
        { state with held :=
            state.held.modify place fun ours => (ours.merge .replaceWins incoming).2 }
    | none => state
  else ⟨incoming.key :: state.known, state.held ++ [incoming]⟩

end Appending

end SchemaLoom
