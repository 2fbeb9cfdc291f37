import Stencil.Proofs.Template.Yield

namespace Stencil

open Grammar

namespace Grammar

variable {p : Piece} {ps : List Piece} {pss : List (List Piece)} {a : Bool}

theorem depth_le_depthAll (h : p ∈ ps) : p.depth ≤ depthAll ps := by
  induction h
  case head        => simp only [depthAll]; omega
  case tail q _ ih => simp only [depthAll]; omega

theorem depthAll_le_depthAlternatives (h : ps ∈ pss) : depthAll ps ≤ depthAlternatives pss := by
  induction h
  case head        => simp only [depthAlternatives]; omega
  case tail q _ ih => simp only [depthAlternatives]; omega

theorem FitAll.of_mem (h : FitAll a ps) (hp : p ∈ ps) : p.Fits a := by
  induction hp
  case head       => exact h.1
  case tail _ ih  => exact ih h.2.2

theorem FitAlternatives.of_mem (h : FitAlternatives pss) (hp : ps ∈ pss) : FitAll true ps := by
  induction hp
  case head       => exact h.1
  case tail _ ih  => exact ih h.2

end Grammar

namespace Yield

-- All blocks are found, without a fault.
def full : Yield where
  tree? h alts := some (Piece.block h alts).tree
  faults _ _ _ := []

theorem full_nodes (p : Piece) : full.nodes p = [p.tree] := by
  cases p <;> rfl

theorem full_pieceFaults (before : List Char) (p : Piece) : full.pieceFaults before p = [] := by
  cases p <;> rfl

theorem full_flatMap_nodes (ps : List Piece) : ps.flatMap full.nodes = treeAll ps := by
  induction ps
  case nil          => rfl
  case cons p ps ih => simp [ih, treeAll, full_nodes]

theorem full_faultsAll (before : List Char) (ps : List Piece) : full.faultsAll before ps = [] := by
  induction ps generalizing before
  case nil          => rfl
  case cons p ps ih => simp [ih, faultsAll, full_pieceFaults]

theorem full_around : full.around = full := by
  have alternatives (pss : List (List Piece)) :
      pss.map full.alternative = treeAlternatives pss := by
    induction pss
    case nil            => rfl
    case cons ps pss ih => simp [ih, treeAlternatives, alternative, full_flatMap_nodes]
  have faults (before : List Char) (pss : List (List Piece)) :
      full.faultsAlternatives before pss = [] := by
    induction pss generalizing before
    case nil            => rfl
    case cons ps pss ih => simp [ih, faultsAlternatives, full_faultsAll]
  simp only [around, alternatives, faults]
  rfl

end Yield

theorem Source.yields_full {src : Source} {n : Nat} {a : Bool} {h : Head} {alts : List (List Piece)}
    (hf : (Piece.block h alts).Fits a) (hd : (Piece.block h alts).depth ≤ n) :
    (src.blocks n).Yields src .full h alts := by
  induction n generalizing a h alts
  case zero      => simp [Piece.depth] at hd
  case succ n ih =>
    have ⟨hh, hfa⟩ := hf
    rw [← Yield.full_around]
    refine yields_blocks hh hfa fun ps hps g as hg => ?_
    have hps' := depthAll_le_depthAlternatives hps
    have hg' := depth_le_depthAll hg
    refine ih ((hfa.of_mem hps).of_mem hg) ?_
    simp only [Piece.depth] at hd hg' ⊢
    omega

namespace Template

-- The parser accepts all of its grammar, and finds the tree of each template.
theorem read_spellAll (ps : List Piece) (hf : FitAll false ps) (hd : depthAll ps ≤ maxNesting)
    (hl : FlushAll [] ps) :
    (read (String.ofList (spellAll ps))).faults = [] ∧
    (read (String.ofList (spellAll ps))).root.erase = gathered (treeAll ps) := by
  have hb (src : Source) (h alts) (hm : .block h alts ∈ ps) :
      (src.blocks maxNesting).Yields src .full h alts :=
    Source.yields_full (hf.of_mem hm) <| (depth_le_depthAll hm).trans hd
  have ⟨hfs, ht⟩ := read_of_yields hf hl hb
  rw [Yield.full_faultsAll] at hfs
  rw [Yield.alternative, Yield.full_flatMap_nodes] at ht
  exact ⟨hfs, ht⟩

-- A text with a bracket, and a block with all parts that a block can have.
def sample : List Piece :=
  [.text "a[".toList,
    .block ⟨"\n".toList, ["b".toList, "c[".toList], true, [(" ".toList, "1.5".toList)], "\t".toList⟩
      [[], [.text "x\n ".toList, .block ⟨[], ["An".toList], false, [], []⟩ []]]]

example : String.ofList (spellAll sample) = "a\\[[\nb.c[? 1.5\t||x\n [An]]" := by decide

theorem read_spellAll_sample :
    FitAll false sample ∧ depthAll sample ≤ maxNesting ∧ FlushAll [] sample ∧
    (read (String.ofList (spellAll sample))).faults = [] ∧
    (read (String.ofList (spellAll sample))).root.erase = gathered (treeAll sample) :=
  have hf : FitAll false sample := by decide
  have hd : depthAll sample ≤ maxNesting := by decide
  have hl : FlushAll [] sample := by decide
  ⟨hf, hd, hl, read_spellAll sample hf hd hl⟩

end Template
end Stencil
