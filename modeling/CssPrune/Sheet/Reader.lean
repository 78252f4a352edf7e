import CssPrune.Sheet

/-!
# Reading with counters

`Progress` learns of each statement at top level what it has come to.  A `Reader` goes through the
sheet only once and does not know that yet when it labels the faults inside a rule: it counts a rule at
the end of its block, wherever that is, and tells by the depth whether the rule stands at top level.
Blocks are read to their end, so a rule that has been counted is not refused afterwards.

`Stylesheet.passes` are the states between the statements at top level; the rules that were taken in
there make up a second count.
-/

namespace CssPrune

/-- What a single pass knows of the sheet at the place it has reached. -/
structure Reader where
  /-- The number of rules at top level whose end has been reached. -/
  finished : Nat
  /-- The number of groups around the place that has been reached. -/
  depth : Nat
  inner : List SyntaxError
  dropped : List SyntaxError

namespace Reader

def start (finished : Nat) : Reader := ⟨finished, 0, [], []⟩

/-- Goes into the block of a group. -/
def enter (r : Reader) : Reader := { r with depth := r.depth + 1 }

/-- Comes out of the block of a group. -/
def leave (r : Reader) : Reader := { r with depth := r.depth - 1 }

/-- A rule has ended; in a group it does not count. -/
def finish (r : Reader) : Reader :=
  if r.depth = 0 then { r with finished := r.finished + 1 } else r

/-- Reports rules in a group that could not be read. -/
def noteInner (text : List Char) (fs : List Fault) (r : Reader) : Reader :=
  { r with inner := r.inner ++ fs.map (Fault.report text r.finished) }

/-- Reports what has been dropped from the block of a rule. -/
def noteDropped (text : List Char) (fs : List Fault) (r : Reader) : Reader :=
  { r with dropped := r.dropped ++ fs.map (Fault.report text r.finished) }

/-- Takes in a statement that holds no list of rules. -/
def take (text : List Char) (o : Outcome Rule) : StateM Reader (Except Fault Rule) := do
  match o.result with
  | .ok rule =>
    modify (noteDropped text o.dropped)
    modify finish
    return .ok rule
  | .error f => return .error f

end Reader

/-- Reads a statement of a list of rules. -/
def Statement.visit (text : List Char) (s : Statement) : StateM Reader (Except Fault Rule) :=
  match s.atName? with
  | none => Reader.take text s.plainRule
  | some name =>
    match _h : s.ending with
    | .block _ body _ =>
      if Rule.groupNames.contains (Text.lower name) then do
        modify Reader.enter
        let results ← (Grammar.ruleStatements s.bodyStart body).attach.mapM fun t => t.1.visit text
        let block := results.map Outcome.plain
        modify Reader.leave
        modify (Reader.noteInner text (Outcome.faults block))
        modify Reader.finish
        return .ok (.group (Text.lower name) s.prelude (Outcome.values block))
      else Reader.take text (blockRule (Text.lower name) s.prelude (readItems s.bodyStart body))
    | .semicolon | .missing => Reader.take text (s.bareAtRule (Text.lower name))
termination_by s.ending.count
decreasing_by
  have h := Grammar.count_ending_le Grammar.rules s.bodyStart body t.1
    (Grammar.mem_of_mem_ruleStatements t.2)
  rw [_h, Ending.count]; omega

/-- A sheet that is being read, between two statements at top level. -/
structure Pass where
  reader : Reader
  rules : List Rule
  outer : List SyntaxError

namespace Pass

def start (rules : List Rule) : Pass := ⟨.start rules.length, rules, []⟩

/-- Reads the next statement and takes in the rule, or reports that there is none. -/
def step (text : List Char) (p : Pass) (s : Statement) : Pass :=
  let r := (s.visit text).run p.reader
  match r.1 with
  | .ok rule => { p with reader := r.2, rules := p.rules ++ [rule] }
  | .error f => { p with reader := r.2, outer := p.outer ++ [f.report text p.rules.length] }

/-- The sheet that has been read. -/
def sheet (p : Pass) : Stylesheet :=
  ⟨p.rules, (p.reader.inner ++ p.outer).mergeSort SyntaxError.before, p.reader.dropped⟩

end Pass

/-- The states that the reading of a sheet goes through. -/
def Stylesheet.passes (css : String) : List Pass :=
  let cs := Component.ofText css.toList
  match leadingCharset cs with
  | some (s, rest) => (Grammar.ruleStatements s.stop rest).scanl (Pass.step css.toList)
      (.start [.statement "charset" s.prelude])
  | none => (Grammar.ruleStatements 0 cs).scanl (Pass.step css.toList) (.start [])

end CssPrune
