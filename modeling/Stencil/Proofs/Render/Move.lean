import Stencil.Proofs.Node.Move
import Stencil.Proofs.Render.Machine

namespace Stencil

mutual

def Value.move (f : Position → Position) : Value → Value
  | .list items => .list (Fragment.moveAll f items)
  | .text s     => .text s
  | .number x   => .number x
  | .boolean b  => .boolean b
  | .symbol s   => .symbol s
  | .missing    => .missing

def Fragment.move (f : Position → Position) : Fragment → Fragment
  | ⟨v, spans, code⟩ => ⟨v.move f, spans.map (Span.move f), code⟩

def Fragment.moveAll (f : Position → Position) : List Fragment → List Fragment
  | []      => []
  | g :: gs => Fragment.move f g :: Fragment.moveAll f gs

end

variable {f : Position → Position}

namespace Fragment

@[simp]
theorem moveAll_eq_map (gs : List Fragment) : moveAll f gs = gs.map (move f) := by
  induction gs
  case nil          => rfl
  case cons g gs ih => simp [moveAll, ih]

@[simp]
theorem move_value (g : Fragment) : (g.move f).value = g.value.move f := by
  cases g; rfl

@[simp]
theorem move_spans (g : Fragment) : (g.move f).spans = g.spans.map (Span.move f) := by
  cases g; rfl

@[simp]
theorem move_code (g : Fragment) : (g.move f).code = g.code := by
  cases g; rfl

@[simp]
theorem move_text (g : Fragment) : (g.move f).text = g.text := by
  rcases g with ⟨v, _, _⟩
  cases v <;> rfl

@[simp]
theorem move_literal (g : Fragment) : (g.move f).literal = g.literal := by
  rcases g with ⟨v, _, _⟩
  cases v <;> rfl

@[simp]
theorem move_items (g : Fragment) : (g.move f).items = g.items.map (move f) := by
  rcases g with ⟨v, _, _⟩
  cases v <;> simp [move, items, Value.move]

theorem move_ofValue (v : Value) (span : Span) (code : String) :
    (ofValue v span code).move f = ofValue (v.move f) (span.move f) code := by
  simp [ofValue, move]

theorem move_orEmptyLiteral (g : Fragment) :
    (g.move f).orEmptyLiteral = g.orEmptyLiteral.move f := by
  rcases g with ⟨v, spans, code⟩
  by_cases h : code = "" <;> simp [orEmptyLiteral, move, h]

end Fragment

namespace Node

@[simp]
theorem isCompound_move (n : Node) : (n.move f).isCompound = n.isCompound := by
  cases n <;> rfl

end Node

namespace Block

variable {emit : Bool}

def move (f : Position → Position) (b : Block) : Block where
  name         := b.name
  span         := b.span.move f
  path         := b.path.move f
  arguments    := b.arguments.map (Fragment.move f)
  alternatives := b.alternatives.map (Fragment.move f)

@[simp]
theorem move_span (b : Block) : (b.move f).span = b.span.move f :=
  rfl

@[simp]
theorem move_name (b : Block) : (b.move f).name = b.name :=
  rfl

@[simp]
theorem move_path (b : Block) : (b.move f).path = b.path.move f :=
  rfl

@[simp]
theorem move_arguments (b : Block) : (b.move f).arguments = b.arguments.map (Fragment.move f) :=
  rfl

@[simp]
theorem move_alternatives (b : Block) :
    (b.move f).alternatives = b.alternatives.map (Fragment.move f) :=
  rfl

theorem choose_move (b : Block) (chosen : Option Fragment) (code : String) :
    (b.move f).choose (chosen.map (Fragment.move f)) code = (b.choose chosen code).move f := by
  cases chosen <;> simp [choose, Fragment.move, Fragment.ofValue, Value.move]

theorem twoWay_move (b : Block) :
    (b.move f).twoWay =
    b.twoWay.map (Prod.map (Fragment.move f) (Option.map (Fragment.move f))) := by
  rcases h : b.alternatives with _ | ⟨yes, _ | ⟨no, _ | ⟨g, gs⟩⟩⟩ <;>
    simp [twoWay, h, Except.map]

theorem between_move (b : Block) (holds : Bool) (condition : String) :
    (b.move f).between emit holds condition =
    (b.between emit holds condition).map (Fragment.move f) := by
  simp only [between, twoWay_move]
  cases b.twoWay
  case error e => rfl
  case ok p    =>
    rcases p with ⟨yes, no⟩
    have h := choose_move (f := f) b (if holds then some yes else no)
    cases holds <;> simp_all [Except.map, Option.map_map, Function.comp_def]

theorem ofBoolean_move (b : Block) (flag : Bool) :
    (b.move f).ofBoolean emit flag = (b.ofBoolean emit flag).map (Fragment.move f) := by
  simp only [ofBoolean, between_move, move_arguments, List.isEmpty_map, move_path,
    Fragment.move_code, move_name]
  split <;> rfl

theorem ofText_move (b : Block) (value : String) :
    (b.move f).ofText emit value = (b.ofText emit value).map (Fragment.move f) := by
  rcases ha : b.arguments with _ | ⟨a, _ | ⟨a', as⟩⟩ <;> cases hr : b.alternatives <;>
    simp [ofText, ha, hr, between_move]
  case nil.nil => rfl
  all_goals rfl

theorem thresholds?_move (gs : List Fragment) :
    thresholds? (gs.map (Fragment.move f)) = thresholds? gs := by
  have h (g : Fragment) : numberOf? (g.move f) = numberOf? g := by
    rcases g with ⟨v, _, _⟩
    cases v <;> rfl
  induction gs
  case nil          => rfl
  case cons g gs ih =>
    rw [thresholds?, thresholds?] at ih
    simp [thresholds?, h, ih]

theorem selectByThreshold_move (ts : List Binary64) (gs : List Fragment) (x : Binary64) :
    selectByThreshold ts (gs.map (Fragment.move f)) x =
    (selectByThreshold ts gs x).map (Fragment.move f) := by
  simp only [selectByThreshold]
  split <;> simp

theorem thresholdBranches_move (path : String) (ts : List Binary64) (gs : List Fragment) :
    thresholdBranches path ts (gs.map (Fragment.move f)) = thresholdBranches path ts gs := by
  simp [thresholdBranches, List.zip_map_right, Function.comp_def]

theorem ofNumber_move (b : Block) (value : Binary64) :
    (b.move f).ofNumber emit value = (b.ofNumber emit value).map (Fragment.move f) := by
  rcases ha : b.arguments with _ | ⟨a, as⟩ <;> rcases hr : b.alternatives with _ | ⟨r, rs⟩ <;>
    simp only [ofNumber, move_arguments, move_alternatives, ha, hr, List.map_nil, List.map_cons]
  case cons.cons =>
    simp only [← List.map_cons, thresholds?_move, selectByThreshold_move, choose_move,
      thresholdBranches_move, List.length_map, List.getElem?_map, Option.map_map,
      Function.comp_def, Fragment.move_code, move_name, move_path]
    split
    case isTrue  => rfl
    case isFalse => cases thresholds? (a :: as) <;> rfl
  case nil.nil   => simp [Except.map, Fragment.move_ofValue, Value.move]
  case nil.cons  => rfl
  case cons.nil  => rfl

theorem argument_move (g : Fragment) : argument (g.move f) = argument g := by
  rcases g with ⟨v, _, _⟩
  cases v <;> rfl

theorem callCode_move (b : Block) (g : Function) : (b.move f).callCode g = b.callCode g := by
  simp [callCode, Function.comp_def]

theorem ofFunction_move (b : Block) (g : Function) :
    (b.move f).ofFunction emit g = (b.ofFunction emit g).map (Fragment.move f) := by
  have ht : (b.alternatives.map (Fragment.move f)).map (·.text) = b.alternatives.map (·.text) := by
    simp [Function.comp_def]
  have ha : (b.arguments.map (Fragment.move f)).map argument = b.arguments.map argument := by
    simp [Function.comp_def, argument_move]
  simp only [ofFunction, move_arguments, move_alternatives, List.length_map, move_name,
    callCode_move, ht, ha, List.getElem?_map]
  rcases exceeded? b.arguments.length g.maxArguments with _ | max
  case some => rfl
  rcases exceeded? b.alternatives.length g.maxResults with _ | max
  case some => rfl
  -- only a selection shows a fragment of the block
  rcases hg : g.call (b.arguments.map argument) (b.alternatives.map (·.text)) with m | s | x | i <;>
    simp only [hg]
  case ok.selection => cases b.alternatives[i]? <;> simp [Except.map, ← choose_move]
  all_goals rfl

theorem evaluate_move (f : Position → Position) (emit : Bool) (b : Block) :
    (b.move f).evaluate emit = (b.evaluate emit).map (Fragment.move f) := by
  have hp : (b.move f).path.value = b.path.value.move f := by simp [move]
  unfold evaluate
  rw [hp]
  cases b.path.value
  case boolean    => exact ofBoolean_move ..
  case text       => exact ofText_move ..
  case number     => exact ofNumber_move ..
  case symbol s   =>
    cases s
    case boolean  => exact ofBoolean_move ..
    case string   => exact ofText_move ..
    case number   => exact ofNumber_move ..
    case function => exact ofFunction_move ..
    case object   => rfl
  case missing    => rfl
  case list       => rfl

end Block

-- Moves what a node evaluates to.
def Evaluated.move (f : Position → Position) (e : Evaluated) : Evaluated :=
  (e.1.move f, e.2.map (Fault.move f))

namespace Context

variable {ctx : Context}

theorem retrieve_move (span : Span) (names : List String) :
    ctx.retrieve (span.move f) names = (ctx.retrieve span names).move f := by
  unfold retrieve
  split <;> simp [Evaluated.move, Fragment.move_ofValue, Value.move, Fault.move]

theorem leaf_move (n : Node) : ctx.leaf (n.move f) = (ctx.leaf n).move f := by
  cases n
  case retrieve => simp [leaf, Node.move, retrieve_move]
  case error    => simp [leaf, Node.move, Evaluated.move, Fragment.move, Value.move]
  all_goals
    simp [leaf, Node.move, Evaluated.move, Fragment.move_ofValue, Fragment.blank, Value.move,
      Node.span]

theorem concat_move (items : List Fragment) :
    concat (items.map (Fragment.move f)) = (concat items).move f := by
  simp [concat, Fragment.move, Value.move, Function.comp_def, List.flatMap_map, List.map_flatMap]

theorem collect_move (items : List Fragment) :
    collect (items.map (Fragment.move f)) = (collect items).move f := by
  simp [collect, Fragment.move, Value.move, Function.comp_def, Fragment.move_orEmptyLiteral]

theorem access_move (span right : Span) (parent child : Fragment) :
    access (span.move f) (right.move f) (parent.move f) (child.move f) =
    (access span right parent child).move f := by
  simp only [access, Fragment.move_value, Fragment.move_text, Fragment.move_code]
  cases parent.value
  case symbol s =>
    simp only [Value.move]
    cases s.step parent.code child.text <;>
      simp [Evaluated.move, Fragment.move_ofValue, Value.move, Fault.move]
  all_goals simp [Evaluated.move, Fragment.move_ofValue, Value.move]

theorem block_move (span : Span) (path : Node) (found args alts : Fragment) :
    ctx.block (span.move f) (path.move f) (found.move f) (args.move f) (alts.move f) =
    (ctx.block span path found args alts).move f := by
  have h := Block.evaluate_move f ctx.emitCode
    ⟨path.pathName?.getD found.code, span, found, args.items, alts.items⟩
  simp only [Block.move] at h
  simp only [block, Fragment.move_value, Fragment.move_items, Fragment.move_code,
    Node.pathName?_move, h]
  cases found.value
  case missing => simp [Value.move, Evaluated.move, Fragment.blank, Fragment.move_ofValue]
  all_goals
    simp only [Value.move]
    cases Block.evaluate .. <;>
      simp [Except.map, Evaluated.move, Fragment.blank, Fragment.move_ofValue, Value.move,
        Fault.move]

theorem combine_move (f : Position → Position) (ctx : Context) (n : Node) (items : List Fragment) :
    ctx.combine (n.move f) (items.map (Fragment.move f)) = (ctx.combine n items).move f := by
  have blank (s : Span) : Fragment.blank (s.move f) = (Fragment.blank s).move f := by
    simp [Fragment.blank, Fragment.move_ofValue, Value.move]
  cases n
  case concat    => simp [combine, Node.move, concat_move, Evaluated.move]
  case arguments => simp [combine, Node.move, collect_move, Evaluated.move]
  case results   => simp [combine, Node.move, collect_move, Evaluated.move]
  case access    =>
    rcases items with _ | ⟨a, _ | ⟨b, _ | ⟨c, items⟩⟩⟩
    case cons.cons.nil => simp [combine, Node.move, access_move]
    all_goals simp [combine, Node.move, Evaluated.move, blank, Node.span]
  case block     =>
    rcases items with _ | ⟨a, _ | ⟨b, _ | ⟨c, _ | ⟨d, items⟩⟩⟩⟩
    case cons.cons.cons.nil => simp [combine, Node.move, block_move]
    all_goals simp [combine, Node.move, Evaluated.move, blank, Node.span]
  all_goals simp [combine, Node.move, Evaluated.move, blank, Node.span]

theorem join_move (n : Node) (parts : List Evaluated) :
    ctx.join (n.move f) (parts.map (Evaluated.move f)) = (ctx.join n parts).move f := by
  have h := combine_move f ctx n (parts.map (·.1))
  simp only [List.map_map, Function.comp_def] at h
  simp [join, Evaluated.move, List.flatMap_map, List.map_flatMap, Function.comp_def, h]

theorem evaluate_move (n : Node) : ctx.evaluate (n.move f) = (ctx.evaluate n).move f := by
  by_cases h : n.isCompound = true
  case pos =>
    have ih : n.children.map (fun c => ctx.evaluate (c.move f)) =
        n.children.map (fun c => (ctx.evaluate c).move f) :=
      List.map_congr_left fun c hc => evaluate_move c
    rw [evaluate_of_compound h, ← join_move, evaluate_of_compound (by simpa using h),
      Node.children_move, List.map_map, List.map_map]
    exact congrArg (ctx.join _) ih
  case neg =>
    rw [evaluate_of_not_compound (by simpa using h), evaluate_of_not_compound (by simpa using h),
      leaf_move]
termination_by n.size
decreasing_by exact Node.size_lt_of_mem_children hc

end Context
end Stencil
