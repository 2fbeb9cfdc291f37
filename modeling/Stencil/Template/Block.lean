import Stencil.Template.Source

namespace Stencil

-- What a step of reading found, the faults it met on the way, and the tokens after it.
@[ext]
structure Parsed (α : Type) where
  value  : α
  faults : List (Fault SyntaxError)
  rest   : List Token

-- Leaves out tokens up to the bracket that closes the current block, and that one as well. `depth`
-- counts the blocks that were opened on the way.
def Token.skipBlock (depth : Nat) : List Token → List Token
  | []      => []
  | t :: ts =>
    if t.kind = .bracketOpen then skipBlock (depth + 1) ts
    else if t.kind = .bracketClose then
      match depth with
      | 0         => ts
      | depth + 1 => skipBlock depth ts
    else skipBlock depth ts

theorem Token.length_skipBlock_le (depth : Nat) (ts : List Token) :
    (skipBlock depth ts).length ≤ ts.length := by
  induction ts generalizing depth with
  | nil => exact Nat.le_refl _
  | cons t ts ih =>
    unfold skipBlock
    split
    · exact Nat.le_succ_of_le (ih _)
    · split
      · cases depth
        · exact Nat.le_succ _
        · exact Nat.le_succ_of_le (ih _)
      · exact Nat.le_succ_of_le (ih _)

-- Reads one block, given its opening bracket and the tokens after it. A block with a fault of its
-- own is none, and that fault comes last.
structure BlockReader where
  read           : Token → List Token → Parsed (Option Node)
  length_rest_le : ∀ t ts, (read t ts).rest.length ≤ ts.length

namespace Source

-- Prose and blocks. Inside an alternative, where `indent` is set, a pipe or a closing bracket ends
-- them; outside of blocks all tokens are read.
def pieces (src : Source) (blocks : BlockReader) (indent : Option Nat) (ts : List Token) :
    Parsed (List Node) :=
  match ts with
  | []      => ⟨[], [], []⟩
  | t :: ts =>
    if t.kind = .bracketOpen then
      let block := blocks.read t ts
      let more := src.pieces blocks indent block.rest
      ⟨block.value.toList ++ more.value, block.faults ++ more.faults, more.rest⟩
    else if t.kind.isProse then
      let more := src.pieces blocks indent (ts.dropWhile (·.kind.isProse))
      ⟨src.prose (indent.getD 0) t (ts.takeWhile (·.kind.isProse)) :: more.value, more.faults,
        more.rest⟩
    else if indent.isSome && (t.kind = .pipe || t.kind = .bracketClose) then ⟨[], [], t :: ts⟩
    else
      let more := src.pieces blocks indent ts
      ⟨more.value, src.misplaced t :: more.faults, more.rest⟩
termination_by ts.length
decreasing_by
  · exact Nat.lt_succ_of_le (blocks.length_rest_le t ts)
  · exact Nat.lt_succ_of_le (Token.length_dropWhile_le _ ts)
  · exact Nat.lt_succ_self _

-- One node for the pieces: an empty text at the place `ahead` if there are none, and no list for a
-- single piece.
def gather (ahead : Span) : List Node → Node
  | []      => .text (.point ahead.start) ""
  | [n]     => n
  | n :: ns => .concat (n.span.through ((n :: ns).getLast (List.cons_ne_nil n ns)).span) (n :: ns)

def concat (src : Source) (blocks : BlockReader) (indent : Option Nat) (ts : List Token) :
    Parsed Node :=
  let found := src.pieces blocks indent ts
  ⟨gather (Token.spanAhead src.finish found.rest) found.value, found.faults, found.rest⟩

theorem length_rest_concat_le (src : Source) (blocks : BlockReader) (indent : Option Nat)
    (ts : List Token) : (src.concat blocks indent ts).rest.length ≤ ts.length := by
  change (src.pieces blocks indent ts).rest.length ≤ ts.length
  fun_induction src.pieces blocks indent ts with
  | case1 => exact Nat.le_refl _
  | case2 t ts _ block more ih =>
    exact Nat.le_succ_of_le (Nat.le_trans ih (blocks.length_rest_le t ts))
  | case3 t ts _ _ more ih =>
    exact Nat.le_succ_of_le (Nat.le_trans ih (Token.length_dropWhile_le _ ts))
  | case4 => exact Nat.le_refl _
  | case5 t ts _ _ _ more ih => exact Nat.le_succ_of_le ih

-- The alternatives of a block, each after a pipe, indented as the line with its pipe.
def alternatives (src : Source) (blocks : BlockReader) (ts : List Token) : Parsed (List Node) :=
  match ts with
  | []      => ⟨[], [], []⟩
  | t :: ts =>
    if t.kind = .pipe then
      let first := src.concat blocks (some (src.indentOf t)) ts
      let more := src.alternatives blocks first.rest
      ⟨first.value :: more.value, first.faults ++ more.faults, more.rest⟩
    else ⟨[], [], t :: ts⟩
termination_by ts.length
decreasing_by exact Nat.lt_succ_of_le (src.length_rest_concat_le blocks _ ts)

theorem length_rest_alternatives_le (src : Source) (blocks : BlockReader) (ts : List Token) :
    (src.alternatives blocks ts).rest.length ≤ ts.length := by
  fun_induction src.alternatives blocks ts with
  | case1 => exact Nat.le_refl _
  | case2 t ts _ first more ih =>
    exact Nat.le_succ_of_le (Nat.le_trans ih (src.length_rest_concat_le blocks _ ts))
  | case3 => exact Nat.le_refl _

-- A block reaches from its path to the last alternative, or else to the last argument.
def assemble (path : Node) (args alts : List Node) : Node :=
  let stop := match Node.hull? alts, Node.hull? args with
    | some s, _      => s.stop
    | none, some s   => s.stop
    | none, none     => path.span.stop
  .block ⟨path.span.start, stop⟩ path (.arguments (listSpan path args) args)
    (.results (listSpan path alts) alts)

-- Takes the closing bracket of a block that was opened by `t`. Without it there is no block, and
-- what follows is read on.
def close (t : Token) (block : Node) (faults : List (Fault SyntaxError)) (ts : List Token) :
    Parsed (Option Node) :=
  if (ts.head?.map (·.kind)) = some .bracketClose then ⟨some block, faults, ts.tail⟩
  else ⟨none, faults ++ [⟨t.span, .missingClose⟩], ts⟩

-- Reads a block whose alternatives may nest as `inner` allows. A block without a path is left out
-- up to its closing bracket.
def readBlock (src : Source) (inner : BlockReader) (t : Token) (ts : List Token) :
    Parsed (Option Node) :=
  match src.path (Token.dropSpace ts) with
  | .error fault     => ⟨none, [fault], Token.skipBlock 0 ts⟩
  | .ok (path, rest) =>
    let args := src.argumentsFrom rest
    let alts := src.alternatives inner args.2
    close t (assemble path args.1 alts.value) alts.faults alts.rest

theorem length_rest_close_le (t : Token) (block : Node) (faults : List (Fault SyntaxError))
    (ts : List Token) : (close t block faults ts).rest.length ≤ ts.length := by
  unfold close
  split
  · simp
  · exact Nat.le_refl _

theorem length_rest_readBlock_le (src : Source) (inner : BlockReader) (t : Token)
    (ts : List Token) : (src.readBlock inner t ts).rest.length ≤ ts.length := by
  unfold readBlock
  split
  · exact Token.length_skipBlock_le 0 ts
  · rename_i path rest h
    exact Nat.le_trans (length_rest_close_le ..) <|
      Nat.le_trans (src.length_rest_alternatives_le inner _) <|
      Nat.le_trans (src.length_rest_argumentsFrom_le rest) <|
      Nat.le_trans (src.length_rest_path_le h) (Token.length_dropSpace_le ts)

-- Reads blocks that nest at most `n` deep. A block that is deeper is left out.
def blocks (src : Source) : Nat → BlockReader
  | 0     =>
    { read t ts          := ⟨none, [⟨t.span, .tooDeep⟩], Token.skipBlock 0 ts⟩
      length_rest_le _ ts := Token.length_skipBlock_le 0 ts }
  | n + 1 =>
    { read           := src.readBlock (src.blocks n)
      length_rest_le := src.length_rest_readBlock_le (src.blocks n) }

end Source
end Stencil
