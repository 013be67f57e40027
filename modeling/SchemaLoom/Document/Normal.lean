import SchemaLoom.Document.Parser
import SchemaLoom.Document.Printer

namespace SchemaLoom

/-! Normal form of a document from elsewhere: it is written and read again, so
its positions are those in its own text, and what cannot be written is refused. -/

/-- Why a source gives no document. -/
inductive SourceError where
  | parse (error : ParseError)
  | print (error : PrintError)
  deriving DecidableEq, Repr

def SourceError.message : SourceError → String
  | .parse error => error.message
  | .print error => error.message

def Document.normalize (document : Document) : Except SourceError Document := do
  let text ← document.print.mapError .print
  (Document.parse text).mapError .parse

end SchemaLoom
