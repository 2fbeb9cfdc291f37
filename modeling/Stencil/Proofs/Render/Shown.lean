import Stencil.Proofs.Render.Move
import Stencil.Proofs.Template.Locality
import Stencil.Render.Report

namespace Stencil

-- What some tokens come to when they are rendered.
@[ext]
structure Shown where
  text   : String := ""
  faults : List (Fault SyntaxError) := []
  errors : List (Fault EvalError) := []

namespace Shown

def append (s t : Shown) : Shown :=
  ⟨s.text ++ t.text, s.faults ++ t.faults, s.errors ++ t.errors⟩

instance : Append Shown := ⟨append⟩

def move (f : Position → Position) (s : Shown) : Shown :=
  ⟨s.text, s.faults.map (Fault.move f), s.errors.map (Fault.move f)⟩

def ofNodes (ctx : Context) (ns : List Node) : Shown where
  text   := String.join (ns.map fun n => (ctx.evaluate n).1.text)
  errors := ns.flatMap fun n => (ctx.evaluate n).2

def ofBlock (ctx : Context) (r : Parsed (Option Node)) : Shown :=
  { ofNodes ctx r.value.toList with faults := r.faults }

variable {f : Position → Position} {ctx : Context}

@[simp]
theorem append_text (s t : Shown) : (s ++ t).text = s.text ++ t.text :=
  rfl

@[simp]
theorem append_faults (s t : Shown) : (s ++ t).faults = s.faults ++ t.faults :=
  rfl

@[simp]
theorem append_errors (s t : Shown) : (s ++ t).errors = s.errors ++ t.errors :=
  rfl

theorem append_assoc (s t u : Shown) : s ++ t ++ u = s ++ (t ++ u) := by
  ext1 <;> simp [String.append_assoc]

theorem nil_append (s : Shown) : {} ++ s = s := by
  ext1 <;> simp

theorem append_nil (s : Shown) : s ++ {} = s := by
  ext1 <;> simp

theorem move_append (s t : Shown) : (s ++ t).move f = s.move f ++ t.move f := by
  ext1 <;> simp [move]

theorem ofNodes_map_move (ns : List Node) :
    ofNodes ctx (ns.map (Node.move f)) = (ofNodes ctx ns).move f := by
  ext1 <;> simp [ofNodes, move, Function.comp_def, Context.evaluate_move, Evaluated.move,
    List.flatMap_map, List.map_flatMap]

theorem ofBlock_move {c : Transfer} {d : Nat} {r r' : Parsed (Option Node)}
    (h : c.Alike (Option.map (Node.move c.move)) d r r') :
    ofBlock ctx r' = (ofBlock ctx r).move c.move := by
  have hn : r'.value.toList = r.value.toList.map (Node.move c.move) := by
    rw [h.value]
    cases r.value <;> rfl
  rw [ofBlock, hn, ofNodes_map_move, h.faults]
  rfl

end Shown

namespace Source

variable {src : Source} {ctx : Context} {blocks : BlockReader} {t : Token} {ts : List Token}

def shown (src : Source) (ctx : Context) (blocks : BlockReader) (ts : List Token) : Shown :=
  let found := src.pieces blocks none ts
  { Shown.ofNodes ctx found.value with faults := found.faults }

theorem shown_nil : src.shown ctx blocks [] = {} := by
  simp [shown, pieces_nil, Shown.ofNodes]

theorem shown_of_open (h : t.kind = .bracketOpen) :
    src.shown ctx blocks (t :: ts) =
    Shown.ofBlock ctx (blocks.read t ts) ++ src.shown ctx blocks (blocks.read t ts).rest := by
  ext1 <;> simp [shown, pieces_of_open h, Shown.ofBlock, Shown.ofNodes]

theorem shown_of_misplaced (ho : t.kind ≠ .bracketOpen) (hp : t.kind.isProse = false) :
    src.shown ctx blocks (t :: ts) =
    { faults := [src.misplaced t] } ++ src.shown ctx blocks ts := by
  have h : src.pieces blocks none (t :: ts) = _ := pieces_of_misplaced ho hp nofun
  ext1 <;> simp [shown, h]

theorem ofNodes_prose_cons (us : List Token) (ns : List Node) :
    Shown.ofNodes ctx (src.prose 0 t us :: ns) =
    { text := String.ofList ((t :: us).flatMap (src.proseOf 0)) } ++ Shown.ofNodes ctx ns := by
  ext1 <;> simp [Shown.ofNodes, prose, Context.evaluate, Context.leaf, Fragment.ofValue,
    Fragment.text, Value.render]

-- Whether the next token belongs to the same run of prose makes no difference.
theorem shown_of_prose (h : t.kind.isProse = true) :
    src.shown ctx blocks (t :: ts) =
    { text := String.ofList (src.proseOf 0 t) } ++ src.shown ctx blocks ts := by
  simp only [shown, pieces_of_prose h, Option.getD_none, ofNodes_prose_cons]
  cases ts
  case nil       => ext1 <;> simp [pieces_nil]
  case cons u us =>
    by_cases hu : u.kind.isProse = true
    case pos => ext1 <;> simp [hu, pieces_of_prose hu, ofNodes_prose_cons, String.append_assoc]
    case neg => ext1 <;> simp [hu]

-- A chunk of tokens is shown as in its own source, and then what follows it.
theorem shown_of_copies (ctx : Context) (n : Nat) {c : Transfer} {d : Nat} (ts : List Token)
    {ts' : List Token}
    (h : c.Copies d ts ts') :
    c.target.shown ctx (c.target.blocks n) ts' =
    (c.source.shown ctx (c.source.blocks n) ts).move c.move ++
    c.target.shown ctx (c.target.blocks n) c.behind := by
  match ts with
  | []      =>
    cases h
    simp [shown_nil, Shown.move, Shown.nil_append]
  | t :: us =>
    by_cases ho : t.kind = .bracketOpen
    case pos =>
      have ⟨t', us', he, ht, hs⟩ := h.of_open ho
      have hr := c.blocks_alike n _ _ _ _ _ ht hs
      have ⟨e, _, hc⟩ := hr.rest
      have ih := shown_of_copies ctx n _ hc
      subst he
      rw [shown_of_open ho, shown_of_open (ht.kind.trans ho), ih, Shown.ofBlock_move hr,
        Shown.move_append, Shown.append_assoc]
    case neg =>
      have ⟨t', us', e, he, ht, hs⟩ := h.of_not_open ho
      have ih := shown_of_copies ctx n us hs
      subst he
      by_cases hp : t.kind.isProse = true
      case pos =>
        rw [shown_of_prose hp, shown_of_prose (by rwa [ht.kind]), ih, ht.proseOf,
          Shown.move_append, Shown.append_assoc]
        rfl
      case neg =>
        rw [Bool.not_eq_true] at hp
        rw [shown_of_misplaced ho hp, shown_of_misplaced (by rwa [ht.kind]) (by rwa [ht.kind]), ih,
          ht.misplaced, Shown.move_append, Shown.append_assoc]
        rfl
termination_by ts.length
decreasing_by
  · exact Nat.lt_succ_of_le ((c.source.blocks n).length_rest_le t us)
  · exact Nat.lt_succ_self _

end Source

theorem Context.evaluate_gather (ctx : Context) (ahead : Span) (ns : List Node) :
    (ctx.evaluate (Source.gather ahead ns)).1.text = (Shown.ofNodes ctx ns).text ∧
    (ctx.evaluate (Source.gather ahead ns)).2 = (Shown.ofNodes ctx ns).errors := by
  rcases ns with _ | ⟨n, _ | ⟨m, ns⟩⟩
  case nil       => exact ⟨rfl, rfl⟩
  case cons.nil  => simp [Source.gather, Shown.ofNodes]
  case cons.cons =>
    simp only [Source.gather, evaluate_of_compound (n := .concat ..) rfl]
    constructor
    · simp [join, combine, concat, Node.children, Fragment.text, Value.render, Shown.ofNodes,
        Function.comp_def]
    · simp [join, combine, Node.children, Shown.ofNodes, List.flatMap_map]

def Shown.ofText (ctx : Context) (text : String) : Shown :=
  let src := Source.ofTokens text (Token.scan text)
  src.shown ctx (src.blocks maxNesting) (Token.scan text)

theorem render_eq_shown (ctx : Context) (text : String) :
    let s := Shown.ofText ctx text
    (render ctx text).result = s.text ∧
    (render ctx text).parseErrors = s.faults.map (·.diagnostic SyntaxError.message) ∧
    (render ctx text).errors = s.errors.map (·.diagnostic EvalError.message) := by
  let src := Source.ofTokens text (Token.scan text)
  let found := src.pieces (src.blocks maxNesting) none (Token.scan text)
  have ⟨ht, he⟩ := ctx.evaluate_gather (Token.spanAhead src.finish found.rest) found.value
  have hr : (render ctx text).result = (ctx.evaluate (Template.read text).root).1.text := by
    simp [render, Node.render, Machine.run_root, Machine.push, Rendering.ofFragment]
  have hf : (render ctx text).errors =
      (ctx.evaluate (Template.read text).root).2.map (·.diagnostic EvalError.message) := by
    simp [render, Node.render, Machine.run_root, Machine.push, Rendering.ofFragment,
      Rendering.diagnostics]
  exact ⟨hr.trans ht, rfl, hf.trans (congrArg _ he)⟩

end Stencil
