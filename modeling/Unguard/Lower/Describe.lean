import Unguard.Lower.Stages
import Unguard.Text.Formless

/-!
# A lowered graph on one line

The description of a lowered graph: its text as a quoted string, and what each pass did.  Characters
that would not show are written by their codes.
-/

namespace Unguard

/-- The characters that stand for `c` in the quoted text. -/
def describeChar (c : Char) : List Char :=
  if c = '\\' then ['\\', '\\']
  else if c = '"' then ['\\', '"']
  else if c = '\n' then ['\\', 'n']
  else if c = '\t' then ['\\', 't']
  else if c = '\r' then ['\\', 'r']
  else if c = '\x00' then ['\\', '0']
  else if Text.isFormless c then
    ['\\', 'u', '\x7b'] ++ Nat.toDigits 16 c.toNat ++ ['\x7d']
  else [c]

def describeText (text : String) : String :=
  "\"" ++ String.ofList (text.toList.flatMap describeChar) ++ "\""

def describeBool (b : Bool) : String :=
  if b then "true" else "false"

def Pass.describe : Pass → String
  | guardRaise => "GuardRaise"
  | promote => "Promote"

def RoundsReport.describe (r : RoundsReport) : String :=
  s!"PassReport \x7b rewritten: {r.reduced}, iterations: {r.rounds}, " ++
    s!"reached_fixpoint: {describeBool r.settled} \x7d"

def SweepReport.describe (r : SweepReport) : String :=
  s!"DceResult \x7b removed_count: {r.removed}, iterations: {r.sweeps}, " ++
    s!"reached_fixpoint: {describeBool r.settled} \x7d"

def StageReport.describe (o : StageReport) : String :=
  let sweep := match o.sweep with
    | some report => s!"Some({report.describe})"
    | none => "None"
  s!"PassOutcome \x7b pass: {o.pass.describe}, report: {o.rounds.describe}, dce: {sweep} \x7d"

/-- The description of a lowered graph. -/
def LoweredGraph.describe (l : LoweredGraph) : Except Fault String := do
  let text ← l.graph.text
  let outcomes := commaSeparated (l.stages.map StageReport.describe)
  return s!"Lowered \x7b graph: {describeText text}, outcomes: [{outcomes}] \x7d"

end Unguard
