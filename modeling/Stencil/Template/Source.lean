import Stencil.Node.Basic
import Stencil.Number.Reading
import Stencil.Template.SyntaxError
import Stencil.Token.Cursor

namespace Stencil

-- What reading consults besides the tokens ahead: the text that they come from, and the empty span
-- where they end.
structure Source where
  chars  : Array Char
  finish : Span

namespace Source

def ofTokens (text : String) (ts : List Token) : Source :=
  ⟨text.toList.toArray, Token.finish ts⟩

-- The number of blanks from an index on.
def blanksFrom (chars : Array Char) (i : Nat) : Nat :=
  if h : i < chars.size then
    if isBlank chars[i] then blanksFrom chars (i + 1) + 1 else 0
  else 0

-- The width of the blanks that begin a token's line.
def indentOf (src : Source) (t : Token) : Nat :=
  blanksFrom src.chars t.offset

-- The hull of the spans of some tokens, which begin with `t`.
def hull (t : Token) (ts : List Token) : Span :=
  t.span.through ((t :: ts).getLast (List.cons_ne_nil t ts)).span

-- Prose

-- The characters that a token adds to a text. Blanks that begin a line lose up to `indent`
-- characters.
def proseOf (src : Source) (indent : Nat) (t : Token) : List Char :=
  match t.kind with
  | .escape => ['[']
  | .blank  => (t.slice src.chars).drop indent
  | _       => t.slice src.chars

-- The text that the tokens `t :: ts` make.
def prose (src : Source) (indent : Nat) (t : Token) (ts : List Token) : Node :=
  .text (hull t ts) (String.ofList ((t :: ts).flatMap (src.proseOf indent)))

-- Paths

def segment (src : Source) (t : Token) : Node :=
  .name t.span (t.content src.chars)

-- The segments that follow the first one, each after a dot.
def moreSegments (src : Source) :
    List Token → Except (Fault SyntaxError) (List Node × List Token)
  | []         => .ok ([], [])
  | [dot]      => if dot.kind = .dot then .error ⟨dot.span, .missingIdentifier⟩ else .ok ([], [dot])
  | dot :: t :: ts =>
    if dot.kind = .dot then
      if t.kind.isSegment then
        (src.moreSegments ts).map fun (segs, rest) => (src.segment t :: segs, rest)
      else .error ⟨dot.span, .missingIdentifier⟩
    else .ok ([], dot :: t :: ts)

-- The segments of a path, at least one, and the tokens after them.
def segments (src : Source) (ts : List Token) :
    Except (Fault SyntaxError) (List Node × List Token) :=
  match ts with
  | []      => .error ⟨src.finish, .missingIdentifier⟩
  | t :: ts =>
    if t.kind.isSegment then
      (src.moreSegments ts).map fun (segs, rest) => (src.segment t :: segs, rest)
    else .error ⟨t.span, .missingIdentifier⟩

-- A path; a question mark after it asks whether it leads anywhere.
def path (src : Source) (ts : List Token) : Except (Fault SyntaxError) (Node × List Token) :=
  (src.segments ts).map fun (segs, rest) =>
    match rest with
    | []         => (.path segs, [])
    | mark :: ts =>
      if mark.kind = .question then
        (.present (((Node.hull? segs).getD .origin).through mark.span) segs, ts)
      else (.path segs, mark :: ts)

theorem length_rest_moreSegments_le (src : Source) {ts rest : List Token} {segs : List Node}
    (h : src.moreSegments ts = .ok (segs, rest)) : rest.length ≤ ts.length := by
  fun_induction src.moreSegments ts generalizing segs rest with
  | case1 | case3 | case6 => cases h; exact Nat.le_refl _
  | case2 | case5 => cases h
  | case4 dot t ts _ _ ih =>
    cases hr : src.moreSegments ts with
    | error e => simp [hr, Except.map] at h
    | ok r =>
      simp only [hr, Except.map, Except.ok.injEq, Prod.mk.injEq] at h
      exact h.2 ▸ Nat.le_succ_of_le (Nat.le_succ_of_le (ih hr))

theorem length_rest_segments_le (src : Source) {ts rest : List Token} {segs : List Node}
    (h : src.segments ts = .ok (segs, rest)) : rest.length ≤ ts.length := by
  unfold segments at h
  split at h
  · cases h
  · rename_i t ts
    split at h
    · cases hr : src.moreSegments ts with
      | error e => simp [hr, Except.map] at h
      | ok r =>
        simp only [hr, Except.map, Except.ok.injEq, Prod.mk.injEq] at h
        exact h.2 ▸ Nat.le_succ_of_le (src.length_rest_moreSegments_le hr)
    · cases h

theorem length_rest_path_le (src : Source) {ts rest : List Token} {p : Node}
    (h : src.path ts = .ok (p, rest)) : rest.length ≤ ts.length := by
  unfold path at h
  cases hr : src.segments ts with
  | error e => simp [hr, Except.map] at h
  | ok r =>
    obtain ⟨segs, rest'⟩ := r
    have hle := src.length_rest_segments_le hr
    simp only [hr, Except.map, Except.ok.injEq] at h
    split at h
    · cases h
      exact Nat.zero_le _
    · simp only [List.length_cons] at hle
      split at h <;> cases h
      · omega
      · exact hle

-- Arguments

-- The tokens `t :: ts` as one argument, a number if all of it spells a finite one.
def argument (src : Source) (t : Token) (ts : List Token) : Node :=
  let cs := (t :: ts).flatMap (·.slice src.chars)
  match (Binary64.read? cs).filter (·.isFinite) with
  | some x => .number (hull t ts) x (String.ofList cs)
  | none   => .text (hull t ts) (String.ofList cs)

-- Arguments, with space before each one. Space that no argument follows is taken as well.
def argumentsFrom (src : Source) (ts : List Token) : List Node × List Token :=
  match ts with
  | []      => ([], [])
  | t :: ts =>
    if t.kind.isSpace then
      match _h : Token.dropSpace ts with
      | []      => ([], [])
      | a :: as =>
        if a.kind.isArgument then
          let (args, rest) := src.argumentsFrom (as.dropWhile (·.kind.isArgument))
          (src.argument a (as.takeWhile (·.kind.isArgument)) :: args, rest)
        else ([], a :: as)
    else ([], t :: ts)
termination_by ts.length
decreasing_by
  have h₁ := Token.length_dropSpace_le ts
  have h₂ := Token.length_dropWhile_le (fun t : Token => t.kind.isArgument) as
  simp only [_h, List.length_cons] at *
  omega

theorem length_rest_argumentsFrom_le (src : Source) (ts : List Token) :
    (src.argumentsFrom ts).2.length ≤ ts.length := by
  fun_induction src.argumentsFrom ts with
  | case1 | case2 => exact Nat.zero_le _
  | case3 t ts _ a as h _ args rest hr ih =>
    have h₁ := Token.length_dropSpace_le ts
    have h₂ := Token.length_dropWhile_le (fun t : Token => t.kind.isArgument) as
    simp only [h, hr, List.length_cons] at *
    omega
  | case4 t ts _ a as h =>
    have h₁ := Token.length_dropSpace_le ts
    simp only [h, List.length_cons] at *
    omega
  | case5 => exact Nat.le_refl _

-- The place of the argument or alternative list of a block; an empty one stands where the path
-- ends.
def listSpan (path : Node) (ns : List Node) : Span :=
  (Node.hull? ns).getD (.point path.span.stop)

-- Tokens out of place

-- A backslash is quoted with the character that it fails to escape.
def misplaced (src : Source) (t : Token) : Fault SyntaxError :=
  let text := t.content src.chars
  if t.kind = .stray ∧ text = "\\" then
    match src.chars[t.past]?.filter (· ≠ '\n') with
    | some c => ⟨t.span, .invalidEscape (String.ofList ['\\', c])⟩
    | none   => ⟨t.span, .invalidEscape "\\"⟩
  else ⟨t.span, .unexpected text⟩

end Source
end Stencil
