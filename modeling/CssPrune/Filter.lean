import CssPrune.Candidate
import CssPrune.Markup
import CssPrune.Options.Reader

/-!
# Filters

A filter is a sheet cut into candidates once and for all.  Applied to a document it gives the text
of the candidates that the document keeps.
-/

namespace CssPrune

/-- How sheets are read and rules written.  Reading may find no sheet at all. -/
structure Backend where
  parse : String → Option Stylesheet
  print : Layout → Rule → String

/-- The reader and the printer of this library. -/
def Backend.standard : Backend := ⟨fun css => some (Stylesheet.parse css), Rule.print⟩

/-- What keeps a filter from being built. -/
inductive FilterError where
  | noStylesheet
  | options (text : String) (e : Options.ReadError)

def FilterError.message : FilterError → String
  | .noStylesheet => "No stylesheet found"
  | .options text e => "invalid options: " ++ e.message text.toList

/-- Reads options from a JSON text. -/
def Options.parse (text : String) : Except FilterError Options :=
  (Options.read text.toList).mapError (.options text)

/-- The candidates of a sheet, and the options by which they are judged. -/
structure Filter where
  candidates : List Candidate
  options : Options

namespace Filter

/-- The filter of a sheet that has been read. -/
def ofSheet (print : Layout → Rule → String) (o : Options) (sheet : Stylesheet) : Filter :=
  ⟨Candidate.ofSheet print o sheet, o⟩

/-- Reads a sheet by a reader of one's own, which may find none. -/
def withBackend (b : Backend) (o : Options) (css : String) : Except FilterError Filter :=
  match b.parse css with
  | some sheet => .ok (ofSheet b.print o sheet)
  | none => .error .noStylesheet

def withOptions (o : Options) (css : String) : Except FilterError Filter :=
  withBackend .standard o css

def build (compress : Bool) (css : String) : Except FilterError Filter :=
  withOptions (.ofCompress compress) css

/-- The candidates that a document keeps, in order. -/
def kept (f : Filter) (document : String) : List Candidate :=
  let classes := Markup.classes document
  let ids := if f.options.matchIds then some (Markup.ids document) else none
  f.candidates.filter fun c => c.isRetainedBy classes ids

/-- The text of the candidates that a document keeps, one on each line in the pretty layout. -/
def apply (f : Filter) (document : String) : String :=
  (f.options.layout.only "\n").intercalate ((f.kept document).map Candidate.css)

/-- One text for each document. -/
def applyAll (f : Filter) (documents : List String) : List String := documents.map f.apply

end Filter

/-- The part of a sheet that each of some documents needs. -/
def prune (compress : Bool) (css : String) : Except FilterError (String → String) :=
  (Filter.build compress css).map Filter.apply

end CssPrune
