import Stencil.Node.Basic
import Stencil.Render.Block

namespace Stencil

-- What evaluation depends on besides the tree.
structure Context where
  bindings : Bindings
  emitCode : Bool := true

-- A fragment, and the faults that were met on the way to it.
abbrev Evaluated :=
  Fragment × List (Fault EvalError)

namespace Context

-- The value at the path of a node.
def retrieve (ctx : Context) (span : Span) (names : List String) : Evaluated :=
  match ctx.bindings.lookup names with
  | .ok s    => (.ofValue (.symbol s) span (Node.dotted names), [])
  | .error e => (.ofValue .missing span (Node.dotted names), [⟨span, .lookup e⟩])

-- Evaluates a node without regard to children. Paths are looked up in one step.
def leaf (ctx : Context) : Node → Evaluated
  | .text s v           => (.ofValue (.text v) s (Code.quote v), [])
  | .number s x literal => (.ofValue (.number x) s literal, [])
  | .name s v           => (.ofValue (.text v) s v, [])
  | .retrieve s segs    => ctx.retrieve s (Node.segmentNames segs)
  | .present s segs     =>
    let names := Node.segmentNames segs
    (.ofValue (.boolean (ctx.bindings.binds names)) s (Node.dotted names ++ " != null"), [])
  | .error _ _          => (⟨.text "", [], ""⟩, [])
  | n                   => (.blank n.span, [])

-- Shows pieces one after the other.
def concat (items : List Fragment) : Fragment where
  value := .text (String.join (items.map (·.text)))
  spans := items.flatMap (·.spans)
  code  := " + ".intercalate ((items.map (·.code)).filter (· ≠ ""))

-- Keeps the items of an argument or alternative list apart.
def collect (items : List Fragment) : Fragment :=
  let items := items.map (·.orEmptyLiteral)
  ⟨.list items, [], Code.list (items.map (·.code))⟩

-- Takes one more step on a path. If the path led nowhere, that is known already.
def access (span right : Span) (parent child : Fragment) : Evaluated :=
  let name := child.text
  let code := parent.code ++ "." ++ name
  match parent.value with
  | .symbol s =>
    match s.step parent.code name with
    | .ok found => (.ofValue (.symbol found) span code, [])
    | .error e  => (.ofValue .missing span code, [⟨right, .lookup e⟩])
  | _ => (.ofValue .missing span code, [])

-- Evaluates a block from its parts. Nothing more is said about a path that led nowhere.
def block (ctx : Context) (span : Span) (path : Node) (found args alts : Fragment) : Evaluated :=
  match found.value with
  | .missing => (.blank span, [])
  | _        =>
    let name := path.pathName?.getD found.code
    match Block.evaluate ctx.emitCode ⟨name, span, found, args.items, alts.items⟩ with
    | .ok f    => (f, [])
    | .error e => (.blank span, [⟨span, e⟩])

-- Combines the fragments of the children of a node.
def combine (ctx : Context) (n : Node) (items : List Fragment) : Evaluated :=
  match n, items with
  | .concat .., items                      => (concat items, [])
  | .arguments .., items                   => (collect items, [])
  | .results .., items                     => (collect items, [])
  | .access s _ right, [parent, child]     => access s right.span parent child
  | .block s path _ _, [found, args, alts] => ctx.block s path found args alts
  | n, _                                   => (.blank n.span, [])

-- Combines children that are evaluated already.
def join (ctx : Context) (n : Node) (parts : List Evaluated) : Evaluated :=
  let (f, faults) := ctx.combine n (parts.map (·.1))
  (f, parts.flatMap (·.2) ++ faults)

mutual

-- Evaluates a tree; only its leaves stand for themselves.
def evaluate (ctx : Context) : Node → Evaluated
  | n@(.concat _ ns)     => ctx.join n (ctx.evaluateAll ns)
  | n@(.arguments _ ns)  => ctx.join n (ctx.evaluateAll ns)
  | n@(.results _ ns)    => ctx.join n (ctx.evaluateAll ns)
  | n@(.access _ l r)    => ctx.join n [ctx.evaluate l, ctx.evaluate r]
  | n@(.block _ p as rs) => ctx.join n [ctx.evaluate p, ctx.evaluate as, ctx.evaluate rs]
  | n@(.name ..) | n@(.text ..) | n@(.number ..) | n@(.retrieve ..) | n@(.present ..)
  | n@(.error ..)        => ctx.leaf n

def evaluateAll (ctx : Context) : List Node → List Evaluated
  | []      => []
  | n :: ns => ctx.evaluate n :: ctx.evaluateAll ns

end

end Context
end Stencil
