import Mathlib
import Stencil.Proofs.Template.Walk

namespace Stencil
namespace Walk

def blamed : Except (Fault SyntaxError) Node → List (Fault SyntaxError)
  | .ok _    => []
  | .error f => [f]

-- A part of a descent ends with what a reader of blocks returned. The fault of the block itself is
-- the last one.
def Settles (w : Walk (Except (Fault SyntaxError) Node)) (d : Descent)
    (found : Parsed (Option Node)) : Prop :=
  ∃ e fs, w.Ends d e fs found.rest ∧ found.value = e.toOption ∧ found.faults = fs ++ blamed e

end Walk

namespace Walker

open Walk
open Descent (Event)

variable {d : Descent} {fs gs : List (Fault SyntaxError)} {t : Token} {ts us rest : List Token}
  {src : Source} {n : Nat} {indent : Option Nat} {nodes : List Node}

theorem ends_keep (found : Except (Fault SyntaxError) Node) (h : d.ahead = ts) :
    (keep nodes found).Ends d (nodes ++ found.toOption.toList) (blamed found) ts := by
  cases found
  case ok      => exact ends_pure h
  case error f =>
    refine (ends_blame f).bind fun d₁ _ h₁ => ?_
    simpa [Except.toOption] using ends_pure (h₁.trans h)

-- A descent reads the blocks that nest at most `n` deep.
def ReadsBlocks (src : Source) (n : Nat) : Prop :=
  ∀ {d t ts}, d.ahead = t :: ts → t.kind = .bracketOpen → d.depth + n = maxNesting →
    (block src).Settles d ((src.blocks n).read t ts)

theorem ends_piecesFrom_of_nil (h : d.ahead = []) :
    (piecesFrom src indent nodes).Ends d nodes [] [] := by
  rw [piecesFrom, ends_here, ends_next?, h]
  exact ends_pure h

-- One round: a piece is read and kept, and the others follow.
theorem ends_piecesFrom_of_piece {e : Except (Fault SyntaxError) Node} {more : List Node}
    (h : d.ahead = t :: ts) (hp : (piece? src indent t).Ends d (some e) fs us)
    (hu : us.length ≤ ts.length)
    (hm : ∀ d₁ : Descent, d₁.depth = d.depth → d₁.ahead = us →
      (piecesFrom src indent (nodes ++ e.toOption.toList)).Ends d₁ more gs rest) :
    (piecesFrom src indent nodes).Ends d more (fs ++ (blamed e ++ gs)) rest := by
  rw [piecesFrom, ends_here, ends_next?, h]
  refine hp.bind fun d₁ l₁ h₁ => ?_
  refine (ends_keep e h₁).bind fun d₂ l₂ h₂ => ?_
  refine (ends_again (by simpa [h, h₂, Nat.lt_succ_iff])).bind fun d₃ l₃ h₃ => ?_
  exact hm d₃ (l₃.depth.trans <| l₂.depth.trans l₁.depth) (h₃.trans h₂)

theorem ends_piece?_of_open {e : Except (Fault SyntaxError) Node} (h : d.ahead = t :: ts)
    (ht : t.kind = .bracketOpen) (hb : (block src).Ends d e fs us) (hu : us.length ≤ ts.length) :
    (piece? src indent t).Ends d (some e) fs us := by
  rw [piece?, if_pos ht, ends_here]
  refine hb.bind_nil fun d₁ l₁ h₁ => ?_
  have sound : (Event.block d.mark d₁.mark).Sound :=
    ⟨l₁.depth, by simpa [Descent.mark, h, h₁, Nat.lt_succ_iff]⟩
  rw [ends_here]
  exact (ends_note sound).bind fun _ _ h₂ => ends_pure (h₂.trans h₁)

theorem ends_piecesFrom (H : ReadsBlocks src n) (hd : d.depth + n = maxNesting) (h : d.ahead = ts) :
    (piecesFrom src indent nodes).Ends d (nodes ++ (src.pieces (src.blocks n) indent ts).value)
      (src.pieces (src.blocks n) indent ts).faults (src.pieces (src.blocks n) indent ts).rest := by
  fun_induction src.pieces (src.blocks n) indent ts generalizing d nodes
  case case1                       => simpa using ends_piecesFrom_of_nil h
  case case2 t ts ht block more ih =>
    obtain ⟨e, fs, hb, hv, hf⟩ := H h ht hd
    have hu := (src.blocks n).length_rest_le t ts
    rw [hv, hf, List.append_assoc, ← List.append_assoc]
    refine ends_piecesFrom_of_piece h (ends_piece?_of_open h ht hb hu) hu fun d₁ hd₁ h₁ => ?_
    exact ih (hd₁ ▸ hd) h₁
  case case3 t ts ho ht more ih    =>
    have hp : (piece? src indent t).Ends d
        (some <| .ok <| src.prose (indent.getD 0) t (ts.takeWhile (·.kind.isProse))) []
        (ts.dropWhile (·.kind.isProse)) := by
      rw [piece?, if_neg ho, if_pos ht]
      exact (ends_text _ h ht).bind fun _ _ => ends_pure
    rw [List.append_cons]
    exact ends_piecesFrom_of_piece h hp (Token.length_dropWhile_le _ ts) fun d₁ hd₁ h₁ =>
      ih (hd₁ ▸ hd) h₁
  case case4 t ts ho ht he         =>
    have hp : (piece? src indent t).Ends d none [] (t :: ts) := by
      rw [piece?, if_neg ho, if_neg ht, if_pos he]
      exact ends_pure h
    rw [piecesFrom, ends_here, ends_next?, h]
    refine hp.bind fun d₁ _ h₁ => ?_
    refine (ends_leave_of_looks rfl (h₁.trans h.symm)).bind fun d₂ _ h₂ => ?_
    simpa using ends_pure (h₂.trans h₁)
  case case5 t ts ho ht he more ih =>
    have hp : (piece? src indent t).Ends d (some <| .error <| src.misplaced t) [] ts := by
      rw [piece?, if_neg ho, if_neg ht, if_neg he]
      exact (ends_advance? h).bind fun _ _ => ends_pure
    refine ends_piecesFrom_of_piece h hp le_rfl fun d₁ hd₁ h₁ => ?_
    simpa [Except.toOption] using ih (hd₁ ▸ hd) h₁

theorem ends_concat (H : ReadsBlocks src n) (hd : d.depth + n = maxNesting) (h : d.ahead = ts) :
    (concat src indent).Ends d (src.concat (src.blocks n) indent ts).value
      (src.concat (src.blocks n) indent ts).faults (src.concat (src.blocks n) indent ts).rest := by
  rw [concat, ends_here]
  refine (ends_piecesFrom H hd h).bind_nil fun d₁ l₁ h₁ => ?_
  have sound : (Event.concat indent d.mark d₁.mark).Sound := by
    refine ⟨l₁.depth, ?_⟩
    rintro rfl
    simp [Descent.mark, h₁, Source.rest_pieces_none]
  rw [ends_here]
  refine (ends_note sound).bind fun d₂ _ h₂ => ?_
  rw [ends_place, h₂, h₁]
  exact ends_pure (h₂.trans h₁)

-- The call itself is written down last.
theorem getLast?_trace_of_concat {root : Node} {d₁ : Descent}
    (h : concat src indent d = some (root, d₁)) :
    d₁.trace.getLast? = some (.concat indent d.mark d₁.mark) := by
  rw [concat] at h
  obtain ⟨⟨nodes, d₂⟩, -, h⟩ := Option.bind_eq_some_iff.mp h
  cases h
  exact List.getLast?_concat

theorem ends_alternativesFrom (alts : List Node) (H : ReadsBlocks src n)
    (hd : d.depth + n = maxNesting) (h : d.ahead = ts) :
    (alternativesFrom src alts).Ends d (alts ++ (src.alternatives (src.blocks n) ts).value)
      (src.alternatives (src.blocks n) ts).faults (src.alternatives (src.blocks n) ts).rest := by
  fun_induction src.alternatives (src.blocks n) ts generalizing d alts
  all_goals rw [alternativesFrom, ends_here]
  case case1                       =>
    refine (ends_consume?_of_ne h (by simp)).bind fun _ _ h₁ => ?_
    simpa using ends_pure h₁
  case case3 t ts ht               =>
    refine (ends_consume?_of_ne h (by simpa)).bind fun _ _ h₁ => ?_
    simpa using ends_pure h₁
  case case2 t ts ht first more ih =>
    refine (ends_consume? h ht).bind fun d₁ l₁ h₁ => ?_
    refine (ends_concat H (l₁.depth ▸ hd) h₁).bind fun d₂ l₂ h₂ => ?_
    have hle := src.length_rest_concat_le (src.blocks n) (some (src.indentOf t)) ts
    refine (ends_again (by simpa [h, h₂, Nat.lt_succ_iff] using hle)).bind fun d₃ l₃ h₃ => ?_
    have hd₃ : d₃.depth = d.depth := l₃.depth.trans <| l₂.depth.trans l₁.depth
    dsimp only
    rw [List.append_cons alts first.value more.value]
    exact ih _ (hd₃ ▸ hd) (h₃.trans h₂)

-- The inside of a block, up to where its closing bracket is looked for.
theorem ends_inside_of_path {p : Node} (H : ReadsBlocks src n) (hd : d.depth + n = maxNesting)
    (h : d.ahead = ts) (hp : src.path (Token.dropSpace ts) = .ok (p, us)) :
    (inside src).Ends d
      (.ok (Source.assemble p (src.argumentsFrom us).1
        (src.alternatives (src.blocks n) (src.argumentsFrom us).2).value))
      (src.alternatives (src.blocks n) (src.argumentsFrom us).2).faults
      (src.alternatives (src.blocks n) (src.argumentsFrom us).2).rest := by
  rw [inside]
  refine (ends_space src h).bind fun d₁ l₁ h₁ => ?_
  have ⟨rest, hr, _, he⟩ := finds_path src h₁
  rw [hp] at hr he
  obtain rfl : us = rest := he _ _ rfl
  refine hr.bind fun d₂ l₂ h₂ => ?_
  refine (ends_argumentsFrom src [] h₂).bind fun d₃ l₃ h₃ => ?_
  have hd₃ : d₃.depth = d.depth := l₃.depth.trans <| l₂.depth.trans l₁.depth
  exact (ends_alternativesFrom [] H (hd₃ ▸ hd) h₃).bind_nil fun _ _ => ends_pure

-- Without a path, the inside of a block ends in front of the next bracket.
theorem finds_inside_of_no_path {f : Fault SyntaxError} (h : d.ahead = ts)
    (hp : src.path (Token.dropSpace ts) = .error f) : (inside src).Finds d (.error f) := by
  have hs : Token.Clear ts (Token.dropSpace ts) := .dropWhile rfl rfl ts
  rw [inside]
  refine .bind (ends_space src h) (h ▸ hs) fun d₁ _ h₁ => ?_
  have ⟨rest, hr, hc, _⟩ := hp ▸ finds_path src h₁
  exact .bind hr hc fun _ _ _ => finds_error

theorem exists_ends_close (src : Source) (t : Token) (node : Node) (fs : List (Fault SyntaxError))
    (ts : List Token) :
    ∃ e, (∀ d : Descent, d.ahead = ts →
        (close src t (.ok node)).Ends d e [] (Source.close t node fs ts).rest) ∧
      (Source.close t node fs ts).value = e.toOption ∧
      (Source.close t node fs ts).faults = fs ++ blamed e := by
  rw [Source.close]
  split
  case isTrue hc  =>
    refine ⟨.ok node, fun d h => ?_, rfl, by simp [blamed]⟩
    cases ts
    case nil       => cases hc
    case cons c us => exact (ends_consume? h (by simpa using hc)).bind fun _ _ => ends_pure
  case isFalse hc =>
    refine ⟨.error ⟨t.span, .missingClose⟩, fun d h => ?_, rfl, rfl⟩
    exact (ends_consume?_of_ne h (by cases ts <;> simp_all)).bind fun _ _ => ends_pure

-- The nesting is counted up for the inside of a block, and it is back where the block is closed.
theorem ends_block (found : Except (Fault SyntaxError) Node) {e : Except (Fault SyntaxError) Node}
    (h : d.ahead = t :: ts) (ht : t.kind = .bracketOpen) (hd : d.depth < maxNesting)
    (hi : ∀ d₁ : Descent, d₁.ahead = ts → d₁.depth = d.depth + 1 →
      ∃ us, (inside src).Ends d₁ found fs us ∧
        ∀ d₂ : Descent, d₂.ahead = us → (close src t found).Ends d₂ e gs rest) :
    (block src).Ends d e (fs ++ gs) rest := by
  rw [block]
  refine (ends_consume? h ht).bind fun d₁ l₁ h₁ => ?_
  have hd₁ : d₁.mark.depth < maxNesting := l₁.depth.trans_lt hd
  dsimp only
  rw [ends_here, if_neg hd₁.not_ge]
  have ⟨us, ⟨d₂, hw, l₂, h₂⟩, hc⟩ :=
    hi (d₁.nest (d₁.depth + 1)) h₁ (congrArg (· + 1) l₁.depth)
  have ⟨d₃, hw', l₃, h₃⟩ := hc (d₂.nest (d₂.depth - 1)) h₂
  refine ⟨d₃, ?_, (l₂.nested hd₁).trans l₃, h₃⟩
  exact (run_bind rfl).trans <| (run_bind hw).trans <| (run_bind rfl).trans hw'

-- Where blocks may not nest deeper, a block is left out.
theorem readsBlocks_zero (src : Source) : ReadsBlocks src 0 := by
  intro d t ts h ht hd
  refine ⟨.error ⟨t.span, .tooDeep⟩, [], ?_, rfl, rfl⟩
  rw [block]
  refine (ends_consume? h ht).bind fun d₁ l₁ h₁ => ?_
  have hd₁ : maxNesting ≤ d₁.mark.depth := by simp [Descent.mark, l₁.depth, ← hd]
  dsimp only
  rw [ends_here, if_pos hd₁]
  exact (ends_skipFrom src 0 h₁).bind fun _ _ => ends_pure

theorem readsBlocks_succ (H : ReadsBlocks src n) : ReadsBlocks src (n + 1) := by
  intro d t ts h ht hd
  have hlt : d.depth < maxNesting := by omega
  change (block src).Settles d (src.readBlock (src.blocks n) t ts)
  rw [Source.readBlock]
  rcases hp : src.path (Token.dropSpace ts) with f | ⟨p, us⟩
  case error =>
    have hb : (block src).Ends d (.error f) ([] ++ []) (Token.skipBlock 0 ts) := by
      refine ends_block (.error f) h ht hlt fun d₁ h₁ _ => ?_
      obtain ⟨us, hi, hc, _⟩ := finds_inside_of_no_path h₁ hp
      have hs : Token.skipBlock 0 us = Token.skipBlock 0 ts := Token.skipBlock_of_clear (h₁ ▸ hc)
      exact ⟨us, hi, fun d₂ h₂ => hs ▸ (ends_skipFrom src 0 h₂).bind fun _ _ => ends_pure⟩
    exact ⟨.error f, [], hb, rfl, rfl⟩
  case ok    =>
    let args := src.argumentsFrom us
    let alts := src.alternatives (src.blocks n) args.2
    let node := Source.assemble p args.1 alts.value
    obtain ⟨e, hc, hv, hf⟩ := exists_ends_close src t node alts.faults alts.rest
    have hb : (block src).Ends d e (alts.faults ++ [])
        (Source.close t node alts.faults alts.rest).rest := by
      refine ends_block (.ok node) h ht hlt fun d₁ h₁ hd₁ => ?_
      have hn : d₁.depth + n = maxNesting := by omega
      exact ⟨alts.rest, ends_inside_of_path H hn h₁ hp, hc⟩
    exact ⟨e, alts.faults, by simpa using hb, hv, hf⟩

theorem readsBlocks (src : Source) (n : Nat) : ReadsBlocks src n := by
  induction n
  case zero      => exact readsBlocks_zero src
  case succ n ih => exact readsBlocks_succ ih

theorem ends_whole (text : String) (h : d.ahead = ts) (hd : d.depth = 0) :
    (whole (.ofTokens text ts)).Ends d (Template.ofTokens text ts).root
      (Template.ofTokens text ts).faults [] := by
  rw [whole, ends_next?, h]
  cases ts
  case nil       =>
    rw [Template.ofTokens, Source.concat, Source.pieces_nil]
    exact ends_pure h
  case cons t ts =>
    let src := Source.ofTokens text (t :: ts)
    have hr : (src.concat (src.blocks maxNesting) none (t :: ts)).rest = [] :=
      Source.rest_pieces_none
    have hn : d.depth + maxNesting = maxNesting := by simp [hd]
    exact hr ▸ ends_concat (readsBlocks src maxNesting) hn h

end Walker

-- A descent ends for any tokens, takes each of them once, and makes the same tree with the same
-- faults. What it writes down on the way is sound, down to the call that takes them all.
theorem Template.descend_reads (text : String) (ts : List Token) :
    ∃ d, descend text ts = some (ofTokens text ts, d) ∧
      d.passed = ts ∧ d.ahead = [] ∧ d.depth = 0 ∧
      (ts = [] ∨ d.trace.getLast? = some (.concat none ⟨ts.length, 0⟩ ⟨0, 0⟩)) ∧
      ∀ e ∈ d.trace, e.Sound := by
  have ⟨d, hw, l, ha⟩ : (Walker.whole (.ofTokens text ts)).Ends (.start ts) _ _ _ :=
    Walker.ends_whole text rfl rfl
  have ⟨us, hu, hp⟩ := l.tokens
  have ⟨es, ht, hs⟩ := l.events
  have hd : d.depth = 0 := l.depth
  have hf : d.faults = (ofTokens text ts).faults := l.faults
  simp only [Descent.start, ha, List.append_nil, List.nil_append] at hu hp ht
  refine ⟨d, by simp [descend, hw, hf], hp.trans hu.symm, ha, hd, ?_, ht ▸ hs⟩
  cases ts
  case nil       => exact .inl rfl
  case cons t ts =>
    have hm : d.mark = ⟨0, 0⟩ := by simp [Descent.mark, ha, hd]
    exact .inr (hm ▸ Walker.getLast?_trace_of_concat hw)

-- Behind the text `b` stands a bracket. The loop of the text and that of the alternative look at it
-- and leave it where it is.
theorem Template.descend_reads_alternative :
    let text := "[a|b]"
    let trace : List Descent.Event := [
      .nesting 1, .round .space true ⟨4, 1⟩ ⟨4, 1⟩, .round .space true ⟨3, 1⟩ ⟨3, 1⟩,
      .round .text false ⟨2, 1⟩ ⟨1, 1⟩, .round .text true ⟨1, 1⟩ ⟨1, 1⟩,
      .round .pieces false ⟨2, 1⟩ ⟨1, 1⟩, .round .pieces true ⟨1, 1⟩ ⟨1, 1⟩,
      .concat (some 0) ⟨2, 1⟩ ⟨1, 1⟩, .round .alternatives false ⟨3, 1⟩ ⟨1, 1⟩,
      .nesting 0, .block ⟨5, 0⟩ ⟨0, 0⟩,
      .round .pieces false ⟨5, 0⟩ ⟨0, 0⟩, .concat none ⟨5, 0⟩ ⟨0, 0⟩]
    ∃ d, descend text (Token.scan text) = some (read text, d) ∧
      d.trace = trace ∧ ∀ e ∈ trace, e.Sound := by
  intro text trace
  obtain ⟨d, h, -, -, -, -, hs⟩ := descend_reads text (Token.scan text)
  have ht : (descend text (Token.scan text)).map (·.2.trace) = some trace := by cbv
  have ht : d.trace = trace := by
    rw [h] at ht
    exact Option.some.inj ht
  exact ⟨d, h, ht, ht ▸ hs⟩

end Stencil
