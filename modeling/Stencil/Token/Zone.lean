namespace Stencil

-- Which characters end a token depends on the zone it is read in. Zones nest: those that were
-- entered and are not yet left form a stack, innermost first.
inductive Zone
  | prose      -- outside all blocks
  | opening    -- after `[`, before the path
  | path
  | arguments
  | results    -- after `|`
  deriving DecidableEq, Inhabited

namespace Zone

-- The word for a zone in listings.
def word : Zone → String
  | prose     => "Text"
  | opening   => "CodeStart"
  | path      => "Identity"
  | arguments => "Arguments"
  | results   => "Results"

-- Prose is read outside of blocks and in their alternatives.
def isProse : Zone → Bool
  | prose | results => true
  | _               => false

-- The zone at the top of a stack.
def current : List Zone → Zone
  | []     => prose
  | z :: _ => z

-- Leaves the innermost block: all zones down to its `opening` go, and that one as well.
def leave? : List Zone → Option (List Zone)
  | []            => none
  | opening :: zs => some zs
  | _ :: zs       => leave? zs

-- The number of blocks that are open.
def depth (zs : List Zone) : Nat :=
  zs.count opening

end Zone
end Stencil
