import Stencil.Template.Basic

namespace Stencil
namespace Descent

inductive Loop
  | space | pieces | text | segments | arguments | argument | alternatives | skip
  deriving DecidableEq

-- How much is still ahead, and how deep the descent is in blocks.
structure Mark where
  left  : Nat
  depth : Nat
  deriving DecidableEq

-- What is written down. Rounds of a loop, and calls, are noted when they are over.
inductive Event
  | round (loop : Loop) (leaves : Bool) (before after : Mark)
  | concat (indent : Option Nat) (before after : Mark)
  | block (before after : Mark)
  | nesting (depth : Nat)        -- the nesting is counted up or down
  | skipping (depth : Int)       -- so is the nesting of what is left out
  | noBracket                    -- a block is to be read where none begins
  | noText                       -- so is a text
  deriving DecidableEq

end Descent

-- A descent takes one token after the other off what is ahead, and goes round in loops and down
-- into itself without knowing that it will come to an end.
structure Descent where
  passed : List Token
  ahead  : List Token
  depth  : Nat
  faults : List (Fault SyntaxError)
  trace  : List Descent.Event
  deriving DecidableEq

-- A part of a descent. It is none if it does not come to an end.
abbrev Walk := StateT Descent Option

namespace Descent

def start (ts : List Token) : Descent :=
  ⟨[], ts, 0, [], []⟩

def mark (d : Descent) : Mark :=
  ⟨d.ahead.length, d.depth⟩

def note (d : Descent) (e : Event) : Descent :=
  { d with trace := d.trace ++ [e] }

-- Takes the next token.
def pass (d : Descent) : Descent :=
  { d with passed := d.passed ++ d.ahead.take 1, ahead := d.ahead.tail }

def nest (d : Descent) (depth : Nat) : Descent :=
  { d with depth }.note (.nesting depth)

def blame (d : Descent) (f : Fault SyntaxError) : Descent :=
  { d with faults := d.faults ++ [f] }

end Descent

namespace Walk

open Descent (Event Loop Mark)

def here : Walk Mark := do
  return (← get).mark

def next? : Walk (Option Token) := do
  return (← get).ahead.head?

def place (src : Source) : Walk Span := do
  return Token.spanAhead src.finish (← get).ahead

def note (e : Event) : Walk Unit :=
  modify (·.note e)

def blame (f : Fault SyntaxError) : Walk Unit :=
  modify (·.blame f)

-- Takes the next token, if there is one.
def advance? : Walk (Option Token) := do
  match ← next? with
  | none   => return none
  | some t =>
    modify (·.pass)
    return some t

-- Takes the next token if it is of the kind `k`.
def consume? (k : Token.Kind) : Walk (Option Token) := do
  match ← next? with
  | none   => return none
  | some t => if t.kind = k then advance? else return none

-- A round of a loop that goes on.
def again (loop : Loop) (before : Mark) : Walk Unit := do
  note (.round loop false before (← here))

-- A round of a loop that leaves it.
def leave (loop : Loop) (before : Mark) : Walk Unit := do
  note (.round loop true before (← here))

end Walk

-- Who takes the tokens. It consults the same things as the readers.
abbrev Walker := Source

namespace Walker

open Walk
open Descent (Loop)

-- Takes a run of tokens of some kinds. So far it has the characters `cs`.
def runFrom (src : Walker) (loop : Loop) (takes : Token.Kind → Bool) (chars : Token → List Char)
    (cs : List Char) (span? : Option Span) : Walk (List Char × Option Span) := do
  let before ← here
  match ← next? with
  | none   => return (cs, span?)
  | some t =>
    if takes t.kind then
      let _ ← advance?
      again loop before
      src |>.runFrom loop takes chars (cs ++ chars t) (some (span?.elim t.span (·.through t.span)))
    else
      leave loop before
      return (cs, span?)
partial_fixpoint

-- Tells whether there was some.
def space (src : Walker) : Walk Bool := do
  return (← src.runFrom .space (·.isSpace) (fun _ => []) [] none).2.isSome

def text (src : Walker) (indent : Nat) : Walk Node := do
  match ← src.runFrom .text (·.isProse) (src.proseOf indent) [] none with
  | (cs, some span) => return .text span (String.ofList cs)
  | (cs, none)      =>
    note .noText
    return .text (← place src) (String.ofList cs)

def segment? (src : Walker) : Walk (Option Node) := do
  match ← consume? .name with
  | some t => return some (src.segment t)
  | none   => return (← consume? .article).map src.segment

def segmentsFrom (src : Walker) (segs : List Node) :
    Walk (Except (Fault SyntaxError) (List Node)) := do
  let before ← here
  match ← consume? .dot with
  | none     => return .ok segs
  | some dot =>
    match ← src.segment? with
    | none     =>
      leave .segments before
      return .error ⟨dot.span, .missingIdentifier⟩
    | some seg =>
      again .segments before
      src |>.segmentsFrom (segs ++ [seg])
partial_fixpoint

def path (src : Walker) : Walk (Except (Fault SyntaxError) Node) := do
  match ← src.segment? with
  | none       => return .error ⟨← place src, .missingIdentifier⟩
  | some first =>
    match ← src.segmentsFrom [first] with
    | .error fault => return .error fault
    | .ok segs     =>
      match ← consume? .question with
      | none      => return .ok (.path segs)
      | some mark =>
        return .ok (.present (((Node.hull? segs).getD .origin).through mark.span) segs)

def argument? (src : Walker) : Walk (Option Node) := do
  match ← src.runFrom .argument (·.isArgument) (·.slice src.chars) [] none with
  | (_, none)       => return none
  | (cs, some span) =>
    match (Binary64.read? cs).filter (·.isFinite) with
    | some x => return some (.number span x (String.ofList cs))
    | none   => return some (.text span (String.ofList cs))

def argumentsFrom (src : Walker) (args : List Node) : Walk (List Node) := do
  let before ← here
  if ← src.space then
    match ← src.argument? with
    | none     =>
      leave .arguments before
      return args
    | some arg =>
      again .arguments before
      src |>.argumentsFrom (args ++ [arg])
  else return args
partial_fixpoint

-- Leaves out tokens up to the bracket that closes the current block, and that one as well.
def skipFrom (src : Walker) (depth : Int) : Walk Unit := do
  let before ← here
  match ← advance? with
  | none   => return
  | some t =>
    if t.kind = .bracketOpen then
      note (.skipping (depth + 1))
      again .skip before
      src |>.skipFrom (depth + 1)
    else if t.kind = .bracketClose then
      if depth = 0 then leave .skip before
      else
        note (.skipping (depth - 1))
        again .skip before
        src |>.skipFrom (depth - 1)
    else
      again .skip before
      src |>.skipFrom depth
partial_fixpoint

-- Keeps a piece, or else the fault in its place.
def keep (nodes : List Node) : Except (Fault SyntaxError) Node → Walk (List Node)
  | .ok n    => return nodes ++ [n]
  | .error f => do
    blame f
    return nodes

-- Ends a block with what was found inside.
def close (src : Walker) (opening : Token) :
    Except (Fault SyntaxError) Node → Walk (Except (Fault SyntaxError) Node)
  | .error fault => do
    src.skipFrom 0
    return .error fault
  | .ok node     => do
    match ← consume? .bracketClose with
    | none   => return .error ⟨opening.span, .missingClose⟩
    | some _ => return .ok node

mutual

-- The piece that begins with the next token `t`. It is none where an alternative ends.
def piece? (src : Walker) (indent : Option Nat) (t : Token) :
    Walk (Option (Except (Fault SyntaxError) Node)) := do
  if t.kind = .bracketOpen then
    let before ← here
    let found ← src |>.block
    note (.block before (← here))
    return some found
  else if t.kind.isProse then
    return some (.ok (← src.text (indent.getD 0)))
  else if indent.isSome && (t.kind = .pipe || t.kind = .bracketClose) then
    return none
  else
    let _ ← advance?
    return some (.error (src.misplaced t))
partial_fixpoint

def piecesFrom (src : Walker) (indent : Option Nat) (nodes : List Node) : Walk (List Node) := do
  let before ← here
  match ← next? with
  | none   => return nodes
  | some t =>
    match ← src |>.piece? indent t with
    | none       =>
      leave .pieces before
      return nodes
    | some found =>
      let nodes ← keep nodes found
      again .pieces before
      src |>.piecesFrom indent nodes
partial_fixpoint

def concat (src : Walker) (indent : Option Nat) : Walk Node := do
  let before ← here
  let nodes ← src |>.piecesFrom indent []
  note (.concat indent before (← here))
  return Source.gather (← place src) nodes
partial_fixpoint

def alternativesFrom (src : Walker) (alts : List Node) : Walk (List Node) := do
  let before ← here
  match ← consume? .pipe with
  | none      => return alts
  | some pipe =>
    let alt ← src |>.concat (some (src.indentOf pipe))
    again .alternatives before
    src |>.alternativesFrom (alts ++ [alt])
partial_fixpoint

-- What stands between the brackets of a block.
def inside (src : Walker) : Walk (Except (Fault SyntaxError) Node) := do
  let _ ← src.space
  match ← src.path with
  | .error fault => return .error fault
  | .ok path     =>
    let args ← src.argumentsFrom []
    let alts ← src |>.alternativesFrom []
    return .ok (Source.assemble path args alts)
partial_fixpoint

def block (src : Walker) : Walk (Except (Fault SyntaxError) Node) := do
  match ← consume? .bracketOpen with
  | none         =>
    note .noBracket
    return .error ⟨← place src, .unexpected ""⟩
  | some opening =>
    if maxNesting ≤ (← here).depth then
      src.skipFrom 0
      return .error ⟨opening.span, .tooDeep⟩
    else
      modify fun d => d.nest (d.depth + 1)
      let found ← src |>.inside
      modify fun d => d.nest (d.depth - 1)
      src.close opening found
partial_fixpoint

end

def whole (src : Walker) : Walk Node := do
  match ← next? with
  | none   => return .text .origin ""
  | some _ => src.concat none

end Walker

-- Reads the tokens of a text by a descent, and tells how it went.
def Template.descend (text : String) (ts : List Token) : Option (Template × Descent) :=
  (Walker.whole (.ofTokens text ts) (.start ts)).map fun (root, d) => (⟨root, d.faults⟩, d)

end Stencil
