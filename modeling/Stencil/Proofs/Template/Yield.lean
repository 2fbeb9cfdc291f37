import Stencil.Proofs.Template.Heads
import Stencil.Proofs.Template.Texts
import Stencil.Template.Basic

namespace Stencil

open Grammar Lexeme Zone

-- What a reader makes of a block: its tree, unless the block is left out, and the faults that are
-- found in it. Faults tell places, so they depend on the text before the block.
structure Yield where
  tree?  : Head → List (List Piece) → Option Node
  faults : List Char → Head → List (List Piece) → List (Fault SyntaxError)

namespace Yield

def nodes (y : Yield) : Piece → List Node
  | .text cs      => [.text .origin (String.ofList cs)]
  | .block h alts => (y.tree? h alts).toList

def pieceFaults (y : Yield) (before : List Char) : Piece → List (Fault SyntaxError)
  | .text _       => []
  | .block h alts => y.faults before h alts

def faultsAll (y : Yield) (before : List Char) : List Piece → List (Fault SyntaxError)
  | []      => []
  | p :: ps => y.pieceFaults before p ++ y.faultsAll (before ++ p.spell) ps

def alternative (y : Yield) (ps : List Piece) : Node :=
  gathered (ps.flatMap y.nodes)

def faultsAlternatives (y : Yield) (before : List Char) :
    List (List Piece) → List (Fault SyntaxError)
  | []        => []
  | ps :: pss => y.faultsAll (before ++ ['|']) ps ++
      y.faultsAlternatives (before ++ '|' :: spellAll ps) pss

-- What becomes of a block if `y` becomes of the blocks in its alternatives.
def around (y : Yield) : Yield where
  tree? h alts         := some (h.tree (alts.map y.alternative))
  faults before h alts := y.faultsAlternatives (before ++ '[' :: h.spell) alts

end Yield

theorem Source.erase_gather (ahead : Span) (ns : List Node) :
    (gather ahead ns).erase = gathered (ns.map Node.erase) := by
  rcases ns with _ | ⟨n, _ | ⟨m, ns⟩⟩
  case nil       => rfl
  case cons.nil  => rfl
  case cons.cons =>
    simp only [gather, Node.erase, Node.move, Node.moveAll_eq_map, List.map_cons, gathered]
    rfl

theorem Source.erase_assemble (p : Node) (args alts : List Node) :
    (assemble p args alts).erase =
    .block .origin p.erase (.arguments .origin (args.map Node.erase))
      (.results .origin (alts.map Node.erase)) := by
  simp only [assemble, Node.erase, Node.move, Node.moveAll_eq_map]
  rfl

-- Behind the text `before`, `blocks` makes `y` of the block, and stops right behind it.
def BlockReader.Yields (blocks : BlockReader) (src : Source) (y : Yield) (h : Head)
    (alts : List (List Piece)) : Prop :=
  ∀ ⦃before r next zs t ts⦄, t.Covers src.chars before zs ['['] next (.opening :: zs) →
    Ahead src.chars (before ++ ['[']) (h.spell ++ (spellAlternatives alts ++ ']' :: r))
      (.opening :: zs) ts →
    (Piece.block h alts).Flush before →
    (blocks.read t ts).value.map Node.erase = y.tree? h alts ∧
    (blocks.read t ts).faults = y.faults before h alts ∧
    Ahead src.chars (before ++ (Piece.block h alts).spell) r zs (blocks.read t ts).rest

-- Where pieces are read, and what stands behind them.
inductive Within : Option Nat → List Zone → List Char → Prop
  | text : Within none [.prose] []
  | alternative {zs outer : List Zone} {c : Char} {r : List Char} :
    current zs = .results → leave? zs = some outer → c ∈ ['|', ']'] → Within (some 0) zs (c :: r)

namespace Within

variable {indent : Option Nat} {zs : List Zone} {r : List Char}

theorem shows (w : Within indent zs r) : Shows indent.isSome zs := by
  cases w
  case text        => rfl
  case alternative => assumption

theorem indent_eq (w : Within indent zs r) : indent.getD 0 = 0 := by
  cases w <;> rfl

theorem head (w : Within indent zs r) :
    ∀ c ∈ r.head?, c ∈ proseMarks indent.isSome ∧ c ≠ '\\' := by
  cases w
  case text        => simp
  case alternative => simp_all [proseMarks]; grind

end Within

namespace Ahead

variable {src : Source} {blocks : BlockReader} {y : Yield} {before r : List Char}
  {zs outer : List Zone} {ts : List Token} {indent : Option Nat}

theorem pieces_end (w : Within indent zs r) (h : Ahead src.chars before r zs ts) :
    src.pieces blocks indent ts = ⟨[], [], ts⟩ := by
  rcases w with _ | ⟨hz, hl, hc⟩
  case text =>
    obtain rfl := h.of_nil
    exact Source.pieces_nil
  case alternative =>
    have hn : current zs ≠ .prose := by simp [hz]
    simp only [List.mem_cons, List.not_mem_nil, or_false] at hc
    rcases hc with rfl | rfl
    case inl =>
      obtain ⟨t, ts, zs', rfl, hk, -⟩ := h.take fun r hw => r.of_pipe hw hn
      exact Source.pieces_of_end (.inl hk) rfl
    case inr =>
      obtain ⟨t, ts, zs', rfl, hk, -⟩ := h.take fun r hw => r.of_close hw hn hl
      exact Source.pieces_of_end (.inr hk) rfl

-- What may stand behind a text.
theorem spelled_behind_text {a : Bool} {ps : List Piece} (hp : ∀ q ∈ ps.head?, q.isText = false)
    (hr : ∀ c ∈ r.head?, c ∈ proseMarks a ∧ c ≠ '\\') :
    ∀ c ∈ (spellAll ps ++ r).head?, c ∈ proseMarks a ∧ c ≠ '\\' := by
  rcases ps with _ | ⟨⟨cs⟩ | ⟨h, alts⟩, ps⟩
  case nil        => exact hr
  case cons.text  => simp [Piece.isText] at hp
  case cons.block => simp [spellAll, Piece.spell, bracket_mem_proseMarks]

theorem pieces {ps : List Piece} (hb : ∀ h alts, .block h alts ∈ ps → blocks.Yields src y h alts)
    (w : Within indent zs r) (h : Ahead src.chars before (spellAll ps ++ r) zs ts)
    (hf : FitAll indent.isSome ps) (hl : FlushAll before ps) :
    (src.pieces blocks indent ts).value.map Node.erase = ps.flatMap y.nodes ∧
    (src.pieces blocks indent ts).faults = y.faultsAll before ps ∧
    Ahead src.chars (before ++ spellAll ps) r zs (src.pieces blocks indent ts).rest := by
  -- by induction on the spelling: behind each piece, the reader stands where the next one begins
  induction ps generalizing before ts
  case nil =>
    rw [h.pieces_end w]
    exact ⟨rfl, rfl, by simpa [spellAll] using h⟩
  case cons p ps ih =>
    obtain ⟨hp, hn, hf⟩ := hf
    obtain ⟨hlp, hl⟩ := hl
    have ih := fun {ts} h => @ih _ ts (fun h alts hm => hb h alts (by simp [hm])) h hf hl
    rw [spellAll, List.append_assoc] at h
    rcases p with cs | ⟨hd, alts⟩
    case text =>
      obtain ⟨hcn, hcs⟩ := hp
      obtain ⟨t, ts', rfl, hk, he, h⟩ :=
        h.prose w.shows hcn hcs (spelled_behind_text (hn rfl) w.head)
      obtain ⟨hv, hfs, h⟩ := ih h
      rw [Source.pieces_of_prose hk, w.indent_eq]
      refine ⟨?_, ?_, ?_⟩
      · simp [he, hv, Yield.nodes]
      · simpa [Yield.faultsAll, Yield.pieceFaults] using hfs
      · simpa [spellAll, Piece.spell] using h
    case block =>
      rw [Piece.spell, List.cons_append] at h
      obtain ⟨t, ts', zs', rfl, hk, rfl, cov, h⟩ := h.take fun r hw => r.of_open hw w.shows
      simp only [List.append_assoc, List.singleton_append] at h
      obtain ⟨hv, hfs, h⟩ := hb hd alts (by simp) cov h hlp
      obtain ⟨hv', hfs', h⟩ := ih h
      rw [Source.pieces_of_open hk]
      refine ⟨?_, ?_, ?_⟩
      · dsimp only
        rw [List.map_append, hv', List.flatMap_cons, Yield.nodes, ← hv]
        cases (blocks.read t ts').value <;> rfl
      · simp [hfs, hfs', Yield.faultsAll, Yield.pieceFaults]
      · simpa [spellAll] using h

-- A pipe at a line that does not begin with a blank has no indent.
theorem indentOf_eq {t : Token} {w next : List Char} {zs' : List Zone}
    (cov : t.Covers src.chars before zs w next zs') (hw : ∀ c ∈ w.head?, isBlank c = false)
    (hn : w ≠ []) (hl : ∀ c ∈ (lastLine before).head?, isBlank c = false) :
    src.indentOf t = 0 := by
  rw [show src.indentOf t = _ from cov.indent src.finish]
  rcases hb : lastLine before with _ | ⟨c, cs⟩
  case cons => simp [hl c (by simp [hb])]
  case nil  =>
    have ⟨c, w', hc⟩ := List.exists_cons_of_ne_nil hn
    simp [hc, hw c (by simp [hc])]

theorem alternatives {alts : List (List Piece)}
    (hb : ∀ ps ∈ alts, ∀ h as, .block h as ∈ ps → blocks.Yields src y h as)
    (h : Ahead src.chars before (spellAlternatives alts ++ ']' :: r) zs ts)
    (hz : current zs ≠ .prose) (hout : leave? zs = some outer) (hf : FitAlternatives alts)
    (hl : FlushAlternatives before alts) :
    (src.alternatives blocks ts).value.map Node.erase = alts.map y.alternative ∧
    (src.alternatives blocks ts).faults = y.faultsAlternatives before alts ∧
    ∃ zs', current zs' ≠ .prose ∧ leave? zs' = some outer ∧
      Ahead src.chars (before ++ spellAlternatives alts) (']' :: r) zs'
        (src.alternatives blocks ts).rest := by
  induction alts generalizing before zs ts
  case nil =>
    obtain ⟨t, ts', zs', rfl, hk, -⟩ := h.take fun r hw => r.of_close hw hz hout
    rw [Source.alternatives_of_ne_pipe (by simp [hk])]
    exact ⟨rfl, rfl, zs, hz, hout, by simpa [spellAlternatives] using h⟩
  case cons ps pss ih =>
    obtain ⟨hfp, hf⟩ := hf
    obtain ⟨hl₀, hlp, hl⟩ := hl
    rw [spellAlternatives, List.cons_append, List.append_assoc] at h
    obtain ⟨t, ts', zs', rfl, hk, ⟨hs, hout'⟩, cov, h⟩ := h.take fun r hw => r.of_pipe hw hz
    have hi : src.indentOf t = 0 := indentOf_eq cov (by simp [isBlank]) (by simp) hl₀
    have w : Within (some 0) zs' (spellAlternatives pss ++ ']' :: r) := by
      cases pss
      case nil  => exact .alternative hs (hout' ▸ hout) (by simp)
      case cons => exact .alternative hs (hout' ▸ hout) (by simp)
    obtain ⟨hv, hfs, h⟩ := h.pieces (hb ps (by simp)) w hfp hlp
    rw [List.append_assoc, List.singleton_append] at h
    have hz' : current zs' ≠ .prose := by simp [show current zs' = _ from hs]
    obtain ⟨hv', hfs', zs'', hz'', hout'', h⟩ :=
      ih (fun qs hm => hb qs (by simp [hm])) h hz' (hout' ▸ hout) hf hl
    rw [Source.alternatives_of_pipe hk, hi]
    refine ⟨?_, ?_, zs'', hz'', hout'', ?_⟩
    · simp [hv', Source.concat, Source.erase_gather, hv, Yield.alternative]
    · simp [hfs', Source.concat, hfs, Yield.faultsAlternatives]
    · simpa [spellAlternatives, Source.concat] using h

end Ahead

-- If one level less of nesting makes `y` of the blocks in the alternatives of a block, then the
-- block is made of that.
theorem Source.yields_blocks {src : Source} {n : Nat} {y : Yield} {h : Head}
    {alts : List (List Piece)} (hf : h.Fits) (hfa : FitAlternatives alts)
    (hb : ∀ ps ∈ alts, ∀ g as, .block g as ∈ ps → (src.blocks n).Yields src y g as) :
    (src.blocks (n + 1)).Yields src y.around h alts := by
  intro before r next zs t ts cov ahead hl
  have hr : ∀ c ∈ (spellAlternatives alts ++ ']' :: r).head?, c ∈ ['|', ']'] := by
    cases alts <;> simp [spellAlternatives]
  obtain ⟨p, rest, hp, he, ha, zs', hz, ahead⟩ := ahead.head hf hr
  rw [List.append_assoc, List.singleton_append] at ahead
  have hzp : current zs' ≠ .prose := by cases hz <;> simp [current]
  obtain ⟨hv, hfs, zs'', hzp', hout, ahead⟩ := ahead.alternatives hb hzp hz.leave?_eq hfa hl
  obtain ⟨t', ts', zs''', hts, hk, rfl, -, ahead⟩ := ahead.take fun r hw => r.of_close hw hzp' hout
  have hread : (src.blocks (n + 1)).read t ts = _ := Source.readBlock_of_close hp hts hk
  rw [hread]
  refine ⟨?_, hfs, by simpa [Piece.spell] using ahead⟩
  simp [Source.erase_assemble, he, ha, hv, Yield.around, Head.tree]

namespace Template

-- What becomes of a whole template.
theorem read_of_yields {ps : List Piece} {y : Yield} (hf : FitAll false ps) (hl : FlushAll [] ps)
    (hb : ∀ src h alts, .block h alts ∈ ps → (Source.blocks src maxNesting).Yields src y h alts) :
    (read (String.ofList (spellAll ps))).faults = y.faultsAll [] ps ∧
    (read (String.ofList (spellAll ps))).root.erase = y.alternative ps := by
  let text := String.ofList (spellAll ps)
  let src := Source.ofTokens text (Token.scan text)
  have h : Ahead src.chars [] (spellAll ps ++ []) [.prose] (Token.scan text) := by
    simpa [src, text, Source.ofTokens] using Ahead.start text
  have ⟨hv, hfs, _⟩ := h.pieces (hb src) .text hf hl
  refine ⟨hfs, ?_⟩
  rw [Yield.alternative, ← hv]
  exact Source.erase_gather _ _

end Template
end Stencil
