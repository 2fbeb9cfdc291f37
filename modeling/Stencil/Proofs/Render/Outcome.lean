import Stencil.Proofs.Render.Machine

namespace Stencil

namespace Outcome

variable (name : String) (args : List Fragment) (alts : List String)

def between (holds : Bool) : Except EvalError Outcome :=
  match alts with
  | []           => .error (.needsResult name)
  | [_] | [_, _] => .ok (.selection (if holds then 0 else 1))
  | _            => .error (.tooManyBranches name)

def ofBoolean (flag : Bool) : Except EvalError Outcome :=
  if args.isEmpty then between name alts flag else .error (.noArguments name)

def ofText (value : String) : Except EvalError Outcome :=
  match args, alts with
  | [], []  => .ok (.text value)
  | [], _   => .error (.needsArgument name)
  | [a], _  => between name alts (a.literal = value)
  | _, _    => .error (.compareOne name)

-- A number below all thresholds selects the alternative that there is no threshold for.
def ofNumber (value : Binary64) : Except EvalError Outcome :=
  match args, alts with
  | [], []  => .ok (.number value)
  | [], _   => .error (.needsArgument name)
  | _, []   => .error (.needsResult name)
  | as, rs  =>
    let max := as.length + 1
    if max < rs.length then .error (.tooManyResults name max rs.length)
    else
      match Block.thresholds? as with
      | none    => .error (.thresholds name)
      | some ts => .ok (.selection ((lastIndex? (fun t => t ≤ value) ts).getD ts.length))

def ofFunction (f : Function) : Except EvalError Outcome :=
  match Block.exceeded? args.length f.maxArguments, Block.exceeded? alts.length f.maxResults with
  | some max, _    => .error (.tooManyArguments name max args.length)
  | none, some max => .error (.tooManyResults name max alts.length)
  | none, none     =>
    match f.call (args.map Block.argument) alts with
    | .error message     => .error (.failed name message)
    | .ok (.selection i) =>
      if i < alts.length then .ok (.selection i) else .error (.selectionOutOfRange name i)
    | .ok o              => .ok o

def ofSymbol : Symbol → Except EvalError Outcome
  | .boolean flag => ofBoolean name args alts flag
  | .string s     => ofText name args alts s
  | .number x     => ofNumber name args alts x
  | .function f   => ofFunction name args alts f
  | .object _     => .error (.cannotDisplay name)

def ofValue : Value → Except EvalError Outcome
  | .boolean flag => ofBoolean name args alts flag
  | .text s       => ofText name args alts s
  | .number x     => ofNumber name args alts x
  | .symbol s     => ofSymbol name args alts s
  | .missing      => .error (.cannotDisplay name)
  | .list _       => .error (.cannotDisplay name)

end Outcome

namespace Block

variable {b : Block}

def outcome (b : Block) : Except EvalError Outcome :=
  Outcome.ofValue b.name b.arguments (b.alternatives.map (·.text)) b.path.value

-- What a block shows for its outcome.
def reveal (b : Block) (code : String) : Outcome → Fragment
  | .text s      => .ofValue (.text s) b.span code
  | .number x    => .ofValue (.number x) b.span code
  | .selection i => b.choose b.alternatives[i]? code

-- The fragment is what the block shows, with some code.
def Reveals (b : Block) (shown : Except EvalError Fragment) (o : Except EvalError Outcome) : Prop :=
  ∃ code, shown = o.map (b.reveal code)

theorem reveals_between (b : Block) (emit holds : Bool) (condition : String) :
    b.Reveals (b.between emit holds condition)
      (Outcome.between b.name (b.alternatives.map (·.text)) holds) := by
  obtain ⟨name, span, path, args, alts⟩ := b
  rcases alts with _ | ⟨yes, _ | ⟨no, _ | ⟨f, fs⟩⟩⟩
  case nil            => exact ⟨"", rfl⟩
  case cons.nil       => cases holds <;> exact ⟨_, rfl⟩
  case cons.cons.nil  => cases holds <;> exact ⟨_, rfl⟩
  case cons.cons.cons => exact ⟨"", rfl⟩

theorem reveals_ofBoolean (b : Block) (emit flag : Bool) :
    b.Reveals (b.ofBoolean emit flag)
      (Outcome.ofBoolean b.name b.arguments (b.alternatives.map (·.text)) flag) := by
  unfold ofBoolean Outcome.ofBoolean
  split
  case isTrue  => exact b.reveals_between ..
  case isFalse => exact ⟨"", rfl⟩

theorem reveals_ofText (b : Block) (emit : Bool) (value : String) :
    b.Reveals (b.ofText emit value)
      (Outcome.ofText b.name b.arguments (b.alternatives.map (·.text)) value) := by
  unfold ofText Outcome.ofText
  rcases b.arguments with _ | ⟨a, _ | ⟨a', as⟩⟩
  case cons.nil  => exact b.reveals_between ..
  case cons.cons => exact ⟨"", rfl⟩
  case nil       =>
    cases b.alternatives
    case nil  => exact ⟨b.path.code, rfl⟩
    case cons => exact ⟨"", rfl⟩

theorem selectByThreshold_eq (ts : List Binary64) (fs : List Fragment) (x : Binary64) :
    selectByThreshold ts fs x = fs[(lastIndex? (fun t => t ≤ x) ts).getD ts.length]? := by
  unfold selectByThreshold
  split <;> simp [*]

theorem reveals_ofNumber (b : Block) (emit : Bool) (value : Binary64) :
    b.Reveals (b.ofNumber emit value)
      (Outcome.ofNumber b.name b.arguments (b.alternatives.map (·.text)) value) := by
  unfold ofNumber Outcome.ofNumber
  rcases ha : b.arguments with _ | ⟨a, as⟩ <;> rcases hr : b.alternatives with _ | ⟨r, rs⟩
  case nil.nil   => exact ⟨b.path.code, rfl⟩
  case nil.cons  => exact ⟨"", rfl⟩
  case cons.nil  => exact ⟨"", rfl⟩
  case cons.cons =>
    simp only [List.map_cons, List.length_cons, List.length_map]
    split
    case isTrue  => exact ⟨"", rfl⟩
    case isFalse =>
      cases thresholds? (a :: as)
      case none    => exact ⟨"", rfl⟩
      case some ts =>
        simp only [selectByThreshold_eq, ← hr]
        exact ⟨_, rfl⟩

theorem reveals_ofFunction (b : Block) (emit : Bool) (f : Function) :
    b.Reveals (b.ofFunction emit f)
      (Outcome.ofFunction b.name b.arguments (b.alternatives.map (·.text)) f) := by
  unfold ofFunction Outcome.ofFunction
  simp only [List.length_map]
  cases exceeded? b.arguments.length f.maxArguments
  case some => exact ⟨"", rfl⟩
  cases exceeded? b.alternatives.length f.maxResults
  case some => exact ⟨"", rfl⟩
  rcases hf : f.call (b.arguments.map argument) (b.alternatives.map (·.text)) with m | s | x | i <;>
    simp only [hf]
  case error        => exact ⟨"", rfl⟩
  case ok.text      => exact ⟨_, rfl⟩
  case ok.number    => exact ⟨_, rfl⟩
  case ok.selection =>
    by_cases hi : i < b.alternatives.length
    case neg => exact ⟨"", by simp [hi, Except.map]⟩
    case pos =>
      refine ⟨codeIf emit fun _ => b.callCode f, ?_⟩
      simp [hi, Except.map, reveal]

-- A block shows its outcome, whether or not it writes its code.
theorem reveals_evaluate (b : Block) (emit : Bool) : b.Reveals (b.evaluate emit) b.outcome := by
  unfold evaluate outcome Outcome.ofValue Outcome.ofSymbol
  cases b.path.value
  case boolean    => exact b.reveals_ofBoolean ..
  case text       => exact b.reveals_ofText ..
  case number     => exact b.reveals_ofNumber ..
  case symbol s   =>
    cases s
    case boolean  => exact b.reveals_ofBoolean ..
    case string   => exact b.reveals_ofText ..
    case number   => exact b.reveals_ofNumber ..
    case function => exact b.reveals_ofFunction ..
    case object   => exact ⟨"", rfl⟩
  case missing    => exact ⟨"", rfl⟩
  case list       => exact ⟨"", rfl⟩

-- What a block comes to with all its parts. Nothing more is said about a path that led nowhere.
def settle (b : Block) (code : String) : Evaluated :=
  match b.path.value with
  | .missing => (.blank b.span, [])
  | _        =>
    match b.outcome with
    | .error e => (.blank b.span, [⟨b.span, e⟩])
    | .ok o    => (b.reveal code o, [])

theorem settle_of_missing {code : String} (h : b.path.value = .missing) :
    b.settle code = (.blank b.span, []) := by
  simp [settle, h]

theorem settle_of_ne_missing {code : String} (h : b.path.value ≠ .missing) :
    b.settle code =
    match b.outcome with
    | .error e => (.blank b.span, [⟨b.span, e⟩])
    | .ok o    => (b.reveal code o, []) := by
  unfold settle
  split
  case h_1 hm => exact absurd hm h
  case h_2    => rfl

theorem settle_of_faults {code : String} (h : (b.settle code).2 ≠ []) :
    (b.settle code).1 = .blank b.span := by
  by_cases hm : b.path.value = .missing
  case pos => simp [settle_of_missing hm]
  case neg =>
    rw [settle_of_ne_missing hm] at h ⊢
    cases ho : b.outcome
    case error => rfl
    case ok    => simp [ho] at h

end Block

namespace Context

section

variable {ctx : Context} {s : Span} {segs : List Node}

theorem value_retrieve_of_lookup {x : Symbol}
    (h : ctx.bindings.lookup (Node.segmentNames segs) = .ok x) :
    (ctx.evaluate (.retrieve s segs)).1.value = .symbol x := by
  simp [evaluate, leaf, retrieve, h, Fragment.ofValue]

theorem value_retrieve_of_lookup_error {e : LookupError}
    (h : ctx.bindings.lookup (Node.segmentNames segs) = .error e) :
    (ctx.evaluate (.retrieve s segs)).1.value = .missing := by
  simp [evaluate, leaf, retrieve, h, Fragment.ofValue]

end

variable (ctx : Context)

theorem exists_block_eq (s : Span) (p : Node) (found args alts : Fragment) :
    ∃ code, ctx.block s p found args alts =
      (Block.mk (p.pathName?.getD found.code) s found args.items alts.items).settle code := by
  generalize hb : Block.mk (p.pathName?.getD found.code) s found args.items alts.items = b
  have hp : found = b.path := hb ▸ rfl
  have hs : s = b.span := hb ▸ rfl
  have ⟨code, h⟩ := b.reveals_evaluate ctx.emitCode
  refine ⟨code, ?_⟩
  simp only [block, Block.settle, hb, h]
  rw [hp, hs]
  cases b.path.value
  case missing => rfl
  all_goals cases b.outcome <;> rfl

-- The faults that a node adds to those of its children.
def ownFaults (n : Node) : List (Fault EvalError) :=
  (ctx.combine n (n.children.map fun c => (ctx.evaluate c).1)).2

-- A block whose parts have been evaluated.
def blockOf (s : Span) (p as rs : Node) : Block :=
  let found := (ctx.evaluate p).1
  ⟨p.pathName?.getD found.code, s, found, (ctx.evaluate as).1.items, (ctx.evaluate rs).1.items⟩

theorem exists_settle (s : Span) (p as rs : Node) :
    ∃ code, (ctx.evaluate (.block s p as rs)).1 = ((ctx.blockOf s p as rs).settle code).1 ∧
      ctx.ownFaults (.block s p as rs) = ((ctx.blockOf s p as rs).settle code).2 := by
  have ⟨code, h⟩ := ctx.exists_block_eq s p (ctx.evaluate p).1 (ctx.evaluate as).1
    (ctx.evaluate rs).1
  have hf : ctx.ownFaults (.block s p as rs) = _ := congrArg Prod.snd h
  refine ⟨code, ?_, hf⟩
  rw [evaluate_block, h]
  rfl

end Context
end Stencil
