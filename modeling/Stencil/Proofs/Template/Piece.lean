import Stencil.Proofs.Node.Move
import Stencil.Proofs.Template.Grammar
import Stencil.Proofs.Token.Place
import Stencil.Template.Source

namespace Stencil

-- A tree without places.
def Node.erase (n : Node) : Node :=
  n.move fun _ => ⟨0, 0⟩

namespace Grammar

-- A block from its opening bracket to its alternatives.
structure Head where
  lead      : List Char
  path      : List (List Char)
  asks      : Bool
  arguments : List (List Char × List Char) -- each one behind the space before it
  trail     : List Char

namespace Head

structure Fits (h : Head) : Prop where
  lead        : Spaces h.lead
  path_ne_nil : h.path ≠ []
  path        : ∀ w ∈ h.path, Segment w
  arguments   : ∀ a ∈ h.arguments, a.1 ≠ [] ∧ Spaces a.1 ∧ Operand a.2
  trail       : Spaces h.trail

instance (h : Head) : Decidable h.Fits :=
  decidable_of_iff (Spaces h.lead ∧ h.path ≠ [] ∧ (∀ w ∈ h.path, Segment w) ∧
      (∀ a ∈ h.arguments, a.1 ≠ [] ∧ Spaces a.1 ∧ Operand a.2) ∧ Spaces h.trail)
    ⟨fun ⟨h₁, h₂, h₃, h₄, h₅⟩ => ⟨h₁, h₂, h₃, h₄, h₅⟩,
      fun ⟨h₁, h₂, h₃, h₄, h₅⟩ => ⟨h₁, h₂, h₃, h₄, h₅⟩⟩

def spell (h : Head) : List Char :=
  h.lead ++ (['.'].intercalate h.path ++ ((if h.asks then ['?'] else []) ++
    (h.arguments.flatMap (fun a => a.1 ++ a.2) ++ h.trail)))

def segments (h : Head) : List Node :=
  h.path.map fun w => .name .origin (String.ofList w)

def pathTree (h : Head) : Node :=
  if h.asks then .present .origin h.segments else .retrieve .origin h.segments

-- An argument is a number if all of it spells a finite one.
def argument (w : List Char) : Node :=
  match (Binary64.read? w).filter (·.isFinite) with
  | some x => .number .origin x (String.ofList w)
  | none   => .text .origin (String.ofList w)

def tree (h : Head) (alternatives : List Node) : Node :=
  .block .origin h.pathTree (.arguments .origin (h.arguments.map fun a => argument a.2))
    (.results .origin alternatives)

end Head

inductive Piece
  | text (chars : List Char)
  | block (head : Head) (alternatives : List (List Piece))

-- A text is written with its opening brackets escaped.
def escape (cs : List Char) : List Char :=
  cs.flatMap fun c => if c = '[' then ['\\', '['] else [c]

-- No text holds these characters.
def textMarks (inAlternative : Bool) : List Char :=
  if inAlternative then ['\\', '|', ']'] else ['\\']

-- One node for the pieces of a template or of an alternative.
def gathered : List Node → Node
  | []  => .text .origin ""
  | [n] => n
  | ns  => .concat .origin ns

def Piece.isText : Piece → Bool
  | text _    => true
  | block _ _ => false

mutual

def Piece.spell : Piece → List Char
  | .text cs      => escape cs
  | .block h alts => '[' :: (h.spell ++ (spellAlternatives alts ++ [']']))

def spellAll : List Piece → List Char
  | []      => []
  | p :: ps => p.spell ++ spellAll ps

def spellAlternatives : List (List Piece) → List Char
  | []        => []
  | ps :: pss => '|' :: (spellAll ps ++ spellAlternatives pss)

end

mutual

def Piece.tree : Piece → Node
  | .text cs      => .text .origin (String.ofList cs)
  | .block h alts => h.tree (treeAlternatives alts)

def treeAll : List Piece → List Node
  | []      => []
  | p :: ps => p.tree :: treeAll ps

def treeAlternatives : List (List Piece) → List Node
  | []        => []
  | ps :: pss => gathered (treeAll ps) :: treeAlternatives pss

end

mutual

-- How deep blocks nest.
def Piece.depth : Piece → Nat
  | .text _       => 0
  | .block _ alts => depthAlternatives alts + 1

def depthAll : List Piece → Nat
  | []      => 0
  | p :: ps => max p.depth (depthAll ps)

def depthAlternatives : List (List Piece) → Nat
  | []        => 0
  | ps :: pss => max (depthAll ps) (depthAlternatives pss)

end

mutual

-- The piece belongs to the grammar.
def Piece.Fits (inAlternative : Bool) : Piece → Prop
  | .text cs      => cs ≠ [] ∧ ∀ c ∈ cs, c ∉ textMarks inAlternative
  | .block h alts => h.Fits ∧ FitAlternatives alts

-- No two texts stand side by side.
def FitAll (inAlternative : Bool) : List Piece → Prop
  | []      => True
  | p :: ps => p.Fits inAlternative ∧ (p.isText = true → ∀ q ∈ ps.head?, q.isText = false) ∧
      FitAll inAlternative ps

def FitAlternatives : List (List Piece) → Prop
  | []        => True
  | ps :: pss => FitAll true ps ∧ FitAlternatives pss

end

mutual

-- Written behind the text `before`, no line that holds a pipe of the piece begins with a blank.
def Piece.Flush (before : List Char) : Piece → Prop
  | .text _       => True
  | .block h alts => FlushAlternatives (before ++ '[' :: h.spell) alts

def FlushAll (before : List Char) : List Piece → Prop
  | []      => True
  | p :: ps => p.Flush before ∧ FlushAll (before ++ p.spell) ps

def FlushAlternatives (before : List Char) : List (List Piece) → Prop
  | []        => True
  | ps :: pss => (∀ c ∈ (lastLine before).head?, isBlank c = false) ∧
      FlushAll (before ++ ['|']) ps ∧ FlushAlternatives (before ++ '|' :: spellAll ps) pss

end

mutual

def Piece.decidableFits (a : Bool) : (p : Piece) → Decidable (p.Fits a)
  | .text cs      =>
    decidable_of_iff (cs ≠ [] ∧ cs.all (· ∉ textMarks a) = true) (by simp [Piece.Fits])
  | .block h alts =>
    have := decidableFitAlternatives alts
    inferInstanceAs (Decidable (h.Fits ∧ FitAlternatives alts))

def decidableFitAll (a : Bool) : (ps : List Piece) → Decidable (FitAll a ps)
  | []      => isTrue trivial
  | p :: ps =>
    have := p.decidableFits a
    have := decidableFitAll a ps
    inferInstanceAs (Decidable (p.Fits a ∧ (p.isText = true → ∀ q ∈ ps.head?, q.isText = false) ∧
      FitAll a ps))

def decidableFitAlternatives : (pss : List (List Piece)) → Decidable (FitAlternatives pss)
  | []        => isTrue trivial
  | ps :: pss =>
    have := decidableFitAll true ps
    have := decidableFitAlternatives pss
    inferInstanceAs (Decidable (FitAll true ps ∧ FitAlternatives pss))

end

mutual

def Piece.decidableFlush (before : List Char) : (p : Piece) → Decidable (p.Flush before)
  | .text _       => isTrue trivial
  | .block h alts => decidableFlushAlternatives (before ++ '[' :: h.spell) alts

def decidableFlushAll (before : List Char) : (ps : List Piece) → Decidable (FlushAll before ps)
  | []      => isTrue trivial
  | p :: ps =>
    have := p.decidableFlush before
    have := decidableFlushAll (before ++ p.spell) ps
    inferInstanceAs (Decidable (p.Flush before ∧ FlushAll (before ++ p.spell) ps))

def decidableFlushAlternatives (before : List Char) :
    (pss : List (List Piece)) → Decidable (FlushAlternatives before pss)
  | []        => isTrue trivial
  | ps :: pss =>
    have := decidableFlushAll (before ++ ['|']) ps
    have := decidableFlushAlternatives (before ++ '|' :: spellAll ps) pss
    decidable_of_iff ((lastLine before).head?.all (!isBlank ·) = true ∧
        FlushAll (before ++ ['|']) ps ∧ FlushAlternatives (before ++ '|' :: spellAll ps) pss)
      (by rw [FlushAlternatives]; cases (lastLine before).head? <;> simp)

end

instance (a : Bool) (ps : List Piece) : Decidable (FitAll a ps) :=
  decidableFitAll a ps

instance (before : List Char) (ps : List Piece) : Decidable (FlushAll before ps) :=
  decidableFlushAll before ps

end Grammar
end Stencil
