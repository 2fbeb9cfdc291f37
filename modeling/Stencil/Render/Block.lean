import Stencil.Render.EvalError
import Stencil.Render.Fragment

namespace Stencil

-- The evaluated parts of a block. Its dotted name is for explanations.
structure Block where
  name         : String
  span         : Span
  path         : Fragment
  arguments    : List Fragment
  alternatives : List Fragment

-- The last position in a list where `p` holds.
def lastIndex? {α : Type} (p : α → Bool) : List α → Option Nat
  | []      => none
  | a :: as =>
    match lastIndex? p as with
    | some i => some (i + 1)
    | none   => if p a then some 0 else none

-- Code that is only written if it is asked for.
def codeIf (emit : Bool) (code : Unit → String) : String :=
  if emit then code () else ""

namespace Block

-- Shows the chosen alternative in its own places. If there is none, nothing is shown in the place
-- of the block.
def choose (b : Block) (chosen : Option Fragment) (code : String) : Fragment :=
  match chosen with
  | some f => ⟨.text f.text, f.spans, code⟩
  | none   => .ofValue (.text "") b.span code

-- The alternatives of a decision between two; the second may be left out.
def twoWay (b : Block) : Except EvalError (Fragment × Option Fragment) :=
  match b.alternatives with
  | []        => .error (.needsResult b.name)
  | [yes]     => .ok (yes, none)
  | [yes, no] => .ok (yes, some no)
  | _         => .error (.tooManyBranches b.name)

-- Decides between two alternatives.
def between (emit : Bool) (b : Block) (holds : Bool) (condition : String) :
    Except EvalError Fragment :=
  b.twoWay.map fun (yes, no) =>
    b.choose (if holds then some yes else no) <| codeIf emit fun _ =>
      Code.condition (no.map (·.code)) [⟨condition, yes.code⟩]

-- Decides by a truth value, as in `[flag|yes|no]` and `[path?|yes|no]`.
def ofBoolean (emit : Bool) (b : Block) (flag : Bool) : Except EvalError Fragment :=
  if b.arguments.isEmpty then b.between emit flag b.path.code
  else .error (.noArguments b.name)

-- Shows a text, as in `[text]`, or compares it, as in `[text other|yes|no]`.
def ofText (emit : Bool) (b : Block) (value : String) : Except EvalError Fragment :=
  match b.arguments, b.alternatives with
  | [], []  => .ok (.ofValue (.text value) b.span b.path.code)
  | [], _   => .error (.needsArgument b.name)
  | [a], _  => b.between emit (a.literal = value) (b.path.code ++ " == " ++ Code.quote a.literal)
  | _, _    => .error (.compareOne b.name)

def numberOf? (f : Fragment) : Option Binary64 :=
  match f.value with
  | .number x => some x
  | _         => none

-- The numbers of a list of arguments, if all of them are numbers.
def thresholds? (fs : List Fragment) : Option (List Binary64) :=
  fs.mapM numberOf?

-- The alternative for a number: that of the last threshold not above it. An alternative more than
-- there are thresholds is for numbers below them all.
def selectByThreshold (thresholds : List Binary64) (alternatives : List Fragment)
    (value : Binary64) : Option Fragment :=
  match lastIndex? (fun t => t ≤ value) thresholds with
  | some i => alternatives[i]?
  | none   => alternatives[thresholds.length]?

-- The conditions for the alternatives with a threshold, the last threshold first.
def thresholdBranches (path : String) (thresholds : List Binary64) (alternatives : List Fragment) :
    List Code.Branch :=
  ((thresholds.zip alternatives).map fun (t, f) =>
    ⟨path ++ " >= " ++ t.render .code, f.code⟩).reverse

-- Shows a number, as in `[number]`, or selects by thresholds, as in `[number t u|r|s|below]`.
def ofNumber (emit : Bool) (b : Block) (value : Binary64) : Except EvalError Fragment :=
  match b.arguments, b.alternatives with
  | [], []  => .ok (.ofValue (.number value) b.span b.path.code)
  | [], _   => .error (.needsArgument b.name)
  | _, []   => .error (.needsResult b.name)
  | as, rs  =>
    let max := as.length + 1
    if max < rs.length then .error (.tooManyResults b.name max rs.length)
    else
      match thresholds? as with
      | none    => .error (.thresholds b.name)
      | some ts =>
        let code := codeIf emit fun _ =>
          Code.condition (rs[ts.length]?.map (·.code)) (thresholdBranches b.path.code ts rs)
        .ok (b.choose (selectByThreshold ts rs value) code)

-- A number is passed as a number, all else as the text it shows.
def argument (f : Fragment) : Argument :=
  match f.value with
  | .number x => .number x
  | _         => .text f.text

def callCode (f : Function) (b : Block) : String :=
  let args := b.arguments.map (·.code)
  let alts := b.alternatives.map (·.code)
  match f.toCode with
  | some write => write b.path.code args alts
  | none       => Code.call b.path.code args alts

-- The limit that a count is over, if it is.
def exceeded? (count : Nat) (limit : Option Nat) : Option Nat :=
  limit.filter (· < count)

-- Calls a function, as in `[f a b|r|s]`. It returns what to show, or which alternative.
def ofFunction (emit : Bool) (b : Block) (f : Function) : Except EvalError Fragment :=
  match exceeded? b.arguments.length f.maxArguments,
      exceeded? b.alternatives.length f.maxResults with
  | some max, _    => .error (.tooManyArguments b.name max b.arguments.length)
  | none, some max => .error (.tooManyResults b.name max b.alternatives.length)
  | none, none     =>
    let code := codeIf emit fun _ => b.callCode f
    match f.call (b.arguments.map argument) (b.alternatives.map (·.text)) with
    | .error message     => .error (.failed b.name message)
    | .ok (.text s)      => .ok (.ofValue (.text s) b.span code)
    | .ok (.number x)    => .ok (.ofValue (.number x) b.span code)
    | .ok (.selection i) =>
      match b.alternatives[i]? with
      | some r => .ok (b.choose (some r) code)
      | none   => .error (.selectionOutOfRange b.name i)

-- Evaluates a block by the value at its path.
def evaluate (emit : Bool) (b : Block) : Except EvalError Fragment :=
  match b.path.value with
  | .boolean flag            => b.ofBoolean emit flag
  | .text s                  => b.ofText emit s
  | .number x                => b.ofNumber emit x
  | .symbol (.boolean flag)  => b.ofBoolean emit flag
  | .symbol (.string s)      => b.ofText emit s
  | .symbol (.number x)      => b.ofNumber emit x
  | .symbol (.function f)    => b.ofFunction emit f
  | .symbol (.object _)      => .error (.cannotDisplay b.name)
  | .missing                 => .error (.cannotDisplay b.name)
  | .list _                  => .error (.cannotDisplay b.name)

end Block
end Stencil
