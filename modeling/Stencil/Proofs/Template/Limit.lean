import Stencil.Proofs.Template.Closing
import Stencil.Proofs.Template.Complete
import Stencil.Proofs.Token.Excerpt

namespace Stencil

open Grammar

namespace Grammar

mutual

-- What is left of a piece if blocks with `k` blocks around them are dropped.
def Piece.prune (k : Nat) : Piece → List Piece
  | .text cs      => [.text cs]
  | .block h alts =>
    match k with
    | 0     => []
    | k + 1 => [.block h (pruneAlternatives k alts)]

def pruneAll (k : Nat) : List Piece → List Piece
  | []      => []
  | p :: ps => p.prune k ++ pruneAll k ps

def pruneAlternatives (k : Nat) : List (List Piece) → List (List Piece)
  | []        => []
  | ps :: pss => pruneAll k ps :: pruneAlternatives k pss

end

mutual

-- The blocks with just `k` blocks around them, in the order in which they are written, if `before`
-- is written in front of the piece. Each is told by the text in front of its opening bracket.
def Piece.opensAt (k : Nat) (before : List Char) : Piece → List (List Char)
  | .text _       => []
  | .block h alts =>
    match k with
    | 0     => [before]
    | k + 1 => opensAtAlternatives k (before ++ '[' :: h.spell) alts

def opensAtAll (k : Nat) (before : List Char) : List Piece → List (List Char)
  | []      => []
  | p :: ps => p.opensAt k before ++ opensAtAll k (before ++ p.spell) ps

def opensAtAlternatives (k : Nat) (before : List Char) : List (List Piece) → List (List Char)
  | []        => []
  | ps :: pss => opensAtAll k (before ++ ['|']) ps ++
      opensAtAlternatives k (before ++ '|' :: spellAll ps) pss

end

theorem treeAll_append (ps qs : List Piece) : treeAll (ps ++ qs) = treeAll ps ++ treeAll qs := by
  induction ps
  case nil          => rfl
  case cons p ps ih => simp [treeAll, ih]

end Grammar

-- The place of a bracket behind the text `before`.
def Span.bracket (before : List Char) : Span :=
  ⟨.behind before, .behind (before ++ ['['])⟩

def Fault.tooDeep (before : List Char) : Fault SyntaxError :=
  ⟨.bracket before, .tooDeep⟩

theorem Token.Covers.span_eq_bracket {chars : Array Char} {before next : List Char}
    {zs zs' : List Zone} {t : Token} (h : t.Covers chars before zs ['['] next zs') :
    t.span = .bracket before := by
  have hs := h.stop
  rw [h.start] at hs
  refine Span.ext h.start ?_
  rw [hs, Span.bracket, Position.behind_concat]
  rfl

namespace Yield

variable {y : Yield} {k : Nat}

-- Blocks may nest `n` deep.
def limit : Nat → Yield
  | 0     =>
    { tree? _ _         := none
      faults before _ _ := [.tooDeep before] }
  | n + 1 => (limit n).around

theorem flatMap_nodes_eq (h : ∀ p, y.nodes p = treeAll (p.prune k)) (ps : List Piece) :
    ps.flatMap y.nodes = treeAll (pruneAll k ps) := by
  induction ps
  case nil          => rfl
  case cons p ps ih => rw [List.flatMap_cons, h, ih, pruneAll, treeAll_append]

theorem map_alternative_eq (h : ∀ p, y.nodes p = treeAll (p.prune k)) (pss : List (List Piece)) :
    pss.map y.alternative = treeAlternatives (pruneAlternatives k pss) := by
  induction pss
  case nil            => rfl
  case cons ps pss ih =>
    rw [List.map_cons, ih, alternative, flatMap_nodes_eq h, pruneAlternatives, treeAlternatives]

-- A block of the next level holds pieces of this one.
theorem limit_nodes (n : Nat) (p : Piece) : (limit n).nodes p = treeAll (p.prune n) := by
  induction n generalizing p
  case zero      => cases p <;> rfl
  case succ n ih =>
    cases p
    case text       => rfl
    case block h as =>
      simp [nodes, limit, around, map_alternative_eq ih, Piece.prune, treeAll, Piece.tree]

theorem faultsAll_eq (h : ∀ before p, y.pieceFaults before p = (p.opensAt k before).map .tooDeep)
    (before : List Char) (ps : List Piece) :
    y.faultsAll before ps = (opensAtAll k before ps).map .tooDeep := by
  induction ps generalizing before
  case nil          => rfl
  case cons p ps ih => rw [faultsAll, h, ih, opensAtAll, List.map_append]

theorem faultsAlternatives_eq
    (h : ∀ before p, y.pieceFaults before p = (p.opensAt k before).map .tooDeep)
    (before : List Char) (pss : List (List Piece)) :
    y.faultsAlternatives before pss = (opensAtAlternatives k before pss).map .tooDeep := by
  induction pss generalizing before
  case nil            => rfl
  case cons ps pss ih =>
    rw [faultsAlternatives, faultsAll_eq h, ih, opensAtAlternatives, List.map_append]

theorem limit_pieceFaults (n : Nat) (before : List Char) (p : Piece) :
    (limit n).pieceFaults before p = (p.opensAt n before).map .tooDeep := by
  induction n generalizing before p
  case zero      => cases p <;> rfl
  case succ n ih =>
    cases p
    case text       => rfl
    case block h as => exact faultsAlternatives_eq ih _ as

end Yield

namespace Source

variable {src : Source} {n : Nat} {a : Bool} {h : Head} {alts : List (List Piece)}

-- With enough levels the block would be read without a fault, so its closing bracket is the one
-- that leaving it out comes to.
theorem yields_dropped (hf : (Piece.block h alts).Fits a) :
    (src.blocks 0).Yields src (.limit 0) h alts := by
  intro before r next zs t ts cov ahead hl
  obtain ⟨hv, hfs, hr⟩ := yields_full hf (Nat.le_refl _) cov ahead hl
  obtain ⟨b, hb, -⟩ := Option.map_eq_some_iff.mp hv
  obtain ⟨inside, c, hts, hc, hi⟩ := exists_close_of_kept hb
  rw [hfs] at hi
  refine ⟨rfl, ?faults, ?rest⟩
  case faults =>
    change [Fault.mk t.span .tooDeep] = [.tooDeep before]
    rw [cov.span_eq_bracket, Fault.tooDeep]
  case rest   =>
    change Stencil.Ahead _ _ _ _ (Token.skipBlock 0 ts)
    rw [hts, Token.skipBlock_of_level hi hc]
    exact hr

theorem yields_limit (hf : (Piece.block h alts).Fits a) :
    (src.blocks n).Yields src (.limit n) h alts := by
  induction n generalizing a h alts
  case zero      => exact yields_dropped hf
  case succ n ih =>
    have ⟨hh, hfa⟩ := hf
    exact yields_blocks hh hfa fun ps hps g as hg => ih ((hfa.of_mem hps).of_mem hg)

end Source

namespace Template

-- A template that nests too deep is reported once for each block with just 64 blocks around it, and
-- its tree is that of the template without these blocks.
theorem read_spellAll_limit (ps : List Piece) (hf : FitAll false ps) (hl : FlushAll [] ps) :
    (read (String.ofList (spellAll ps))).diagnostics =
      (opensAtAll 64 [] ps).map (fun before => ⟨.bracket before, "blocks nested deeper than 64"⟩) ∧
    (read (String.ofList (spellAll ps))).root.erase = gathered (treeAll (pruneAll 64 ps)) := by
  have hb (src : Source) (h alts) (hm : .block h alts ∈ ps) :
      (src.blocks maxNesting).Yields src (.limit maxNesting) h alts :=
    Source.yields_limit (hf.of_mem hm)
  have ⟨hfs, ht⟩ := read_of_yields hf hl hb
  refine ⟨?diagnostics, ?tree⟩
  case diagnostics =>
    rw [diagnostics, hfs, Yield.faultsAll_eq (Yield.limit_pieceFaults maxNesting), List.map_map]
    rfl
  case tree        =>
    rw [ht, Yield.alternative, Yield.flatMap_nodes_eq (Yield.limit_nodes maxNesting)]
    rfl

-- Pieces within `n` blocks.
def nest : Nat → List Piece → List Piece
  | 0, ps     => ps
  | n + 1, ps => [.block ⟨[], [['a']], false, [], []⟩ [nest n ps]]

theorem pruneAll_nest (n : Nat) (ps : List Piece) :
    pruneAll n (nest n ps) = nest n (pruneAll 0 ps) := by
  induction n
  case zero      => rfl
  case succ n ih => simp [nest, pruneAll, Piece.prune, pruneAlternatives, ih]

-- Two blocks that are too deep in one alternative, the first of them with a block inside.
def deep : List Piece :=
  nest 64 [.text ['x'], .block ⟨[], [['b']], false, [], []⟩ [nest 1 []], .text ['y'],
    .block ⟨[], [['c']], true, [], []⟩ []]

theorem read_spellAll_deep :
    FitAll false deep ∧ FlushAll [] deep ∧
    (read (String.ofList (spellAll deep))).diagnostics =
      [⟨⟨⟨0, 193⟩, ⟨0, 194⟩⟩, "blocks nested deeper than 64"⟩,
        ⟨⟨⟨0, 202⟩, ⟨0, 203⟩⟩, "blocks nested deeper than 64"⟩] ∧
    (read (String.ofList (spellAll deep))).root.erase =
      gathered (treeAll (nest 64 [.text ['x'], .text ['y']])) := by
  have hf : FitAll false deep := by decide +kernel
  have hl : FlushAll [] deep := by decide +kernel
  obtain ⟨hd, ht⟩ := read_spellAll_limit deep hf hl
  have hp : pruneAll 64 deep = nest 64 [.text ['x'], .text ['y']] := pruneAll_nest 64 _
  exact ⟨hf, hl, hd.trans (by decide +kernel), hp ▸ ht⟩

end Template
end Stencil
