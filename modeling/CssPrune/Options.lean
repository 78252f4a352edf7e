import CssPrune.Rule.Printer

/-!
# Options

Three switches, each with a name under which it is written down.
-/

namespace CssPrune

/-- The switches of a filter. -/
structure Options where
  /-- Write rules in the compressed layout and put nothing between them. -/
  compress : Bool
  /-- Let the ids of a document keep rules, too. -/
  matchIds : Bool
  /-- Keep rules whose selectors mention neither a class nor an id. -/
  keepUnanchoredRules : Bool
deriving DecidableEq, Repr

namespace Options

/-- The name of a switch. -/
inductive Field where
  | compress
  | matchIds
  | keepUnanchoredRules
deriving DecidableEq, Repr

namespace Field

/-- Every field, in the order in which they are written down. -/
def all : List Field := [.compress, .matchIds, .keepUnanchoredRules]

def name : Field → String
  | .compress => "compress"
  | .matchIds => "matchIds"
  | .keepUnanchoredRules => "keepUnanchoredRules"

/-- The field of this name. -/
def ofName? (s : String) : Option Field := all.find? fun f => f.name = s

end Field

/-- Compressed output; ids do not count, and rules without names are dropped. -/
def default : Options := ⟨true, false, false⟩

/-- The default but for the layout. -/
def ofCompress (compress : Bool) : Options := { default with compress := compress }

/-- The value of a field. -/
def get (o : Options) : Field → Bool
  | .compress => o.compress
  | .matchIds => o.matchIds
  | .keepUnanchoredRules => o.keepUnanchoredRules

/-- The options with these fields given; the others have their default. -/
def ofGiven (given : List (Field × Bool)) : Options :=
  let value (f : Field) : Bool := (given.lookup f).getD (default.get f)
  ⟨value .compress, value .matchIds, value .keepUnanchoredRules⟩

/-- The layout that the options choose. -/
def layout (o : Options) : Layout := .ofCompress o.compress

/-- The JSON object of the options. -/
def toJson (o : Options) : String :=
  "\x7b" ++
    ",".intercalate (Field.all.map fun f => "\"" ++ f.name ++ "\":" ++ toString (o.get f)) ++
    "\x7d"

end Options

end CssPrune
