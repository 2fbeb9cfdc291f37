import Mathlib.Data.List.Infix
import Stencil.Proofs.Render.Shown
import Stencil.Proofs.Template.Dedent
import Stencil.Proofs.Template.Texts
import Stencil.Proofs.Token.Excerpt

namespace Stencil

open Grammar (escape escape_bracket escape_cons)

-- Each opening bracket stands right behind a backslash.
def Guarded (cs : List Char) : Prop :=
  ∀ u v, cs = u ++ '[' :: v → u.getLast? = some '\\'

-- The text with all escaped brackets, and without all other backslashes.
def plain (cs : List Char) : List Char :=
  (unescape cs).filter (· ≠ '\\')

-- There is a backslash at the index, and it escapes nothing.
def isStray (cs : List Char) (i : Nat) : Bool :=
  cs[i]? = some '\\' && cs[i + 1]? ≠ some '['

def strays (cs : List Char) : List Nat :=
  (List.range cs.length).filter (isStray cs)

-- A stray backslash is quoted with the character behind it, unless its line ends there.
def strayMark (cs : List Char) (i : Nat) : String :=
  String.ofList ('\\' :: (cs[i + 1]?.filter (· ≠ '\n')).toList)

-- The place of the character at the index.
def placeOf (cs : List Char) (i : Nat) : Span :=
  let p := Position.behind (cs.take i)
  ⟨p, ⟨p.line, p.col + 1⟩⟩

def strayFault (cs : List Char) (i : Nat) : Fault SyntaxError :=
  ⟨placeOf cs i, .invalidEscape (strayMark cs i)⟩

namespace Guarded

variable {cs v w : List Char} {c : Char}

theorem nil : Guarded [] := by
  simp [Guarded]

theorem cons (hc : c ≠ '[') (h : Guarded cs) : Guarded (c :: cs) := by
  intro u v hu
  rcases u with _ | ⟨d, u⟩
  case nil  => exact absurd (List.cons.inj hu).1 hc
  case cons =>
    have hl := h u v (List.cons.inj hu).2
    rw [List.getLast?_cons, hl]
    rfl

theorem escaped (h : Guarded cs) : Guarded ('\\' :: '[' :: cs) := by
  intro u v hu
  rcases u with _ | ⟨d, _ | ⟨e, u⟩⟩
  case nil       => cases hu
  case cons.nil  => rw [(List.cons.inj hu).1.symm]; rfl
  case cons.cons =>
    have hl := h u v (List.cons.inj (List.cons.inj hu).2).2
    rw [List.getLast?_cons, List.getLast?_cons, hl]
    rfl

theorem of_escape (cs : List Char) : Guarded (escape cs) := by
  induction cs
  case nil          => exact nil
  case cons c cs ih =>
    by_cases hc : c = '['
    case pos => rw [hc, escape_bracket]; exact ih.escaped
    case neg => rw [escape_cons hc]; exact ih.cons hc

-- What is left behind a front that does not cut an escape in two.
theorem of_append (h : Guarded (v ++ w)) (hv : v.getLast? = some '\\' → w.head? ≠ some '[') :
    Guarded w := by
  intro u x hu
  have hl := h (v ++ u) x (by rw [hu, List.append_assoc])
  rcases u with _ | ⟨d, u⟩
  case nil  => exact absurd (by rw [hu]; rfl) (hv (by simpa using hl))
  case cons => simpa [List.getLast?_append] using hl

end Guarded

section

variable {cs before v w : List Char}

theorem plain_escaped : plain ('\\' :: '[' :: cs) = '[' :: plain cs := by
  simp [plain, unescape]

theorem plain_stray (h : cs.head? ≠ some '[') : plain ('\\' :: cs) = plain cs := by
  rcases cs with _ | ⟨c, cs⟩
  case nil  => rfl
  case cons =>
    have hc : c ≠ '[' := by simpa using h
    have hu : unescape ('\\' :: c :: cs) = '\\' :: unescape (c :: cs) := by
      rw [unescape]
      simp [hc]
    simp [plain, hu]

theorem plain_append (h : '\\' ∉ v) : plain (v ++ w) = v ++ plain w := by
  have hv : v.filter (· ≠ '\\') = v := by
    rw [List.filter_eq_self]
    intro c hc
    simpa using ne_of_mem_of_not_mem hc h
  rw [plain, unescape_append h, List.filter_append, hv, plain]

theorem plain_escape (h : '\\' ∉ cs) : plain (escape cs) = cs := by
  induction cs
  case nil          => rfl
  case cons c cs ih =>
    simp only [List.mem_cons, not_or] at h
    by_cases hc : c = '['
    case pos => rw [hc, escape_bracket, plain_escaped, ih h.2]
    case neg =>
      have := plain_append (v := [c]) (w := escape cs) (by simpa using h.1)
      rw [escape_cons hc, ← List.singleton_append, this, ih h.2, List.singleton_append]

-- The stray backslashes of a stretch of a text.
def straysFrom (cs : List Char) (start length : Nat) : List Nat :=
  (List.range' start length).filter (isStray cs)

theorem straysFrom_append (before v w : List Char) (cs : List Char) :
    straysFrom cs before.length (v ++ w).length =
    straysFrom cs before.length v.length ++ straysFrom cs (before ++ v).length w.length := by
  simp only [straysFrom, List.length_append, ← List.filter_append, List.range'_append_1]

theorem straysFrom_plain (h : '\\' ∉ v) :
    straysFrom (before ++ (v ++ w)) before.length v.length = [] := by
  rw [straysFrom, List.filter_eq_nil_iff]
  intro i hi
  obtain ⟨hle, hlt⟩ := List.mem_range'_1.mp hi
  have hc : (before ++ (v ++ w))[i]? = v[i - before.length]? := by
    rw [List.getElem?_append_right hle, List.getElem?_append_left (by omega)]
  intro hs
  rw [isStray, hc, Bool.and_eq_true, decide_eq_true_eq] at hs
  exact h (List.mem_of_getElem? hs.1)

theorem straysFrom_escaped :
    straysFrom (before ++ (['\\', '['] ++ w)) before.length 2 = [] := by
  simp [straysFrom, isStray, List.range'_succ]

theorem straysFrom_stray (h : w.head? ≠ some '[') :
    straysFrom (before ++ (['\\'] ++ w)) before.length 1 = [before.length] := by
  have hn : (before ++ '\\' :: w)[before.length + 1]? = w.head? := by
    rw [List.getElem?_append_right (by omega)]
    cases w <;> simp
  simp [straysFrom, isStray, List.range'_succ, hn, h]

end

-- The tokens of prose outside of all blocks.
theorem Lexeme.Reads.of_prose {b : Bool} {next w : List Char} {k : Token.Kind} {zs : List Zone}
    (r : Reads b next [.prose] k w zs) :
    w = ['['] ∨ zs = [.prose] ∧
      (k = .escape ∧ w = ['\\', '['] ∨ k = .stray ∧ w = ['\\'] ∧ next.head? ≠ some '[' ∨
        k.isProse = true ∧ k ≠ .escape ∧ '\\' ∉ w) := by
  cases r
  case escape           => exact .inr ⟨rfl, .inl ⟨rfl, rfl⟩⟩
  case stray h          => exact .inr ⟨rfl, .inr (.inl ⟨rfl, rfl, h⟩)⟩
  case newline          => exact .inr ⟨rfl, .inr (.inr ⟨rfl, by simp, by simp⟩)⟩
  case opens            => exact .inl rfl
  case indent hw        =>
    exact .inr ⟨rfl, .inr (.inr ⟨rfl, by simp, fun h => absurd (hw.blank _ h) (by decide)⟩)⟩
  case prose hw _       =>
    exact .inr ⟨rfl, .inr (.inr ⟨rfl, by simp, fun h => hw.plain _ h (by decide)⟩)⟩
  case closes h _       => exact absurd rfl h
  case unmatched h _ _  => exact absurd rfl h
  case dot | question | article | name | pipe => cases ‹Zone.InPath _ _›

namespace Scanner

variable {s s' : Scanner} {t : Token} {ts : List Token} {before v w : List Char} {src : Source}
  {ctx : Context} {blocks : BlockReader}

-- A stray backslash is a token of its own, which is reported.
theorem Step.misplaced_eq (step : Step s t ['\\'] s') (h : Behind before s) (hk : t.kind = .stray)
    (hs : src.chars = (before ++ s.rest).toArray) :
    src.misplaced t = strayFault (before ++ s.rest) before.length := by
  have hspan : t.span = placeOf (before ++ s.rest) before.length := by
    rw [step.token, placeOf, List.take_left' rfl, ← h.position_eq]
    rfl
  have hw : t.content src.chars = "\\" := by
    rw [Token.content, hs, step.slice_eq h]
  have hnext : src.chars[t.past]? = (before ++ s.rest)[before.length + 1]? := by
    rw [hs, step.past_eq h]
    simp
  simp only [Source.misplaced, hk, hw, hnext, hspan, strayFault, strayMark, and_self, if_true]
  split
  case h_1 hc => rw [hc]; rfl
  case h_2 hc => rw [hc]; rfl

-- One token of a guarded text, in front of any others.
theorem Step.shown_guarded (step : Step s t v s') (h : Behind before s) (hz : s.zones = [.prose])
    (hg : Guarded s.rest) (hs : src.chars = (before ++ s.rest).toArray) (ctx : Context)
    (blocks : BlockReader) (ts : List Token) :
    s'.zones = [.prose] ∧ Guarded s'.rest ∧ t.kind ≠ .bracketOpen ∧
    ∃ x, plain s.rest = x ++ plain s'.rest ∧
      src.shown ctx blocks (t :: ts) =
        { text   := String.ofList x
          faults := (straysFrom (before ++ s.rest) before.length v.length).map
            (strayFault (before ++ s.rest)) } ++ src.shown ctx blocks ts := by
  have hv : t.slice src.chars = v := hs ▸ step.slice_eq h
  have hr := step.rest
  rcases (hz ▸ step.reads).of_prose with rfl | ⟨hz', hk⟩
  case inl => exact absurd (hg [] s'.rest hr) (by simp)
  have hl (hl : v.getLast? = some '\\') : s'.rest.head? ≠ some '[' := by
    rcases hk with ⟨-, rfl⟩ | ⟨-, -, hn⟩ | ⟨-, -, hn⟩
    · simp at hl
    · exact hn
    · exact absurd (List.mem_of_getLast? hl) hn
  refine ⟨hz', (hr ▸ hg).of_append hl, ?_⟩
  rcases hk with ⟨hk, rfl⟩ | ⟨hk, rfl, hn⟩ | ⟨hk, he, hn⟩
  case inl =>
    refine ⟨by simp [hk], ['['], by rw [hr]; exact plain_escaped, ?_⟩
    rw [Source.shown_of_prose (by rw [hk]; rfl), hr, List.length_cons, List.length_singleton,
      straysFrom_escaped]
    simp [Source.proseOf, hk]
  case inr.inl =>
    refine ⟨by simp [hk], [], by rw [hr]; exact plain_stray hn, ?_⟩
    rw [Source.shown_of_misplaced (by simp [hk]) (by rw [hk]; rfl), step.misplaced_eq h hk hs, hr,
      List.length_singleton, straysFrom_stray hn]
    rfl
  case inr.inr =>
    have ho : t.kind ≠ .bracketOpen := fun ho => by simp [ho, Token.Kind.isProse] at hk
    refine ⟨ho, v, by rw [hr]; exact plain_append hn, ?_⟩
    rw [Source.shown_of_prose hk, Source.proseOf_of_ne_escape he, hv, hr, straysFrom_plain hn]
    rfl

theorem Steps.shown_guarded (e : Steps s ts w s') (hend : s'.rest = []) (h : Behind before s)
    (hz : s.zones = [.prose]) (hg : Guarded s.rest) (hs : src.chars = (before ++ s.rest).toArray) :
    src.shown ctx blocks ts =
      { text   := String.ofList (plain s.rest)
        faults := (straysFrom (before ++ s.rest) before.length w.length).map
          (strayFault (before ++ s.rest)) } ∧
    ∀ t ∈ ts, t.kind ≠ .bracketOpen := by
  induction e generalizing before
  case refl =>
    rw [hend]
    exact ⟨Source.shown_nil, nofun⟩
  case step s s₁ s₂ t ts v w step e ih =>
    have ⟨hz, hg, ht, x, hx, hshown⟩ := step.shown_guarded h hz hg hs ctx blocks ts
    have hcs : before ++ s.rest = before ++ v ++ s₁.rest := by rw [step.rest, List.append_assoc]
    have ⟨ih, ho⟩ := ih hend (step.behind h) hz hg (hcs ▸ hs)
    refine ⟨?_, List.forall_mem_cons.mpr ⟨ht, ho⟩⟩
    rw [hshown, ih, hx, straysFrom_append, ← hcs]
    ext1 <;> simp

end Scanner

namespace Source

variable {src : Source} {ctx : Context} {blocks : BlockReader} {indent : Option Nat} {t : Token}
  {ts us : List Token}

theorem isProse_of_no_faults (ho : ∀ t ∈ ts, t.kind ≠ .bracketOpen)
    (hf : (src.shown ctx blocks ts).faults = []) : ∀ t ∈ ts, t.kind.isProse = true := by
  induction ts
  case nil          => nofun
  case cons t ts ih =>
    have ⟨ht, ho⟩ := List.forall_mem_cons.mp ho
    by_cases hp : t.kind.isProse = true
    case pos =>
      rw [shown_of_prose hp] at hf
      exact List.forall_mem_cons.mpr ⟨hp, ih ho (by simpa using hf)⟩
    case neg =>
      rw [shown_of_misplaced ht (by simpa using hp)] at hf
      simp at hf

-- A run of prose is one text.
theorem pieces_of_run (h : ∀ u ∈ t :: us, u.kind.isProse = true) :
    src.pieces blocks indent (t :: us) = ⟨[src.prose (indent.getD 0) t us], [], []⟩ := by
  have ⟨ht, hus⟩ := List.forall_mem_cons.mp h
  rw [pieces_of_prose ht, List.dropWhile_eq_nil_iff.mpr hus, List.takeWhile_eq_self_iff.mpr hus,
    pieces_nil]

end Source

theorem Template.root_of_run {text : String} {t : Token} {us : List Token}
    (hs : Token.scan text = t :: us) (h : ∀ u ∈ t :: us, u.kind.isProse = true) :
    (read text).root = (Source.ofTokens text (Token.scan text)).prose 0 t us := by
  simp [read, ofTokens, Source.concat, hs, Source.pieces_of_run h, Source.gather]

theorem render_of_run (ctx : Context) {text : String} {t : Token} {us : List Token}
    (hs : Token.scan text = t :: us) (h : ∀ u ∈ t :: us, u.kind.isProse = true) :
    let r := render ctx text
    r.spans = [Source.hull t us] ∧
    r.code = if ctx.emitCode then some (Code.quote r.result) else none := by
  simp [render, Node.render_eq, Template.root_of_run hs h, Source.prose, Context.evaluate,
    Context.leaf, Rendering.ofFragment, Fragment.ofValue, Fragment.text, Value.render]

-- The first token stands at the front of the text.
theorem Token.scan_cons {text : String} (h : text ≠ "") :
    ∃ t us, scan text = t :: us ∧ t.span.start = ⟨0, 0⟩ := by
  rcases (Scanner.start text).tokens_cases with ⟨-, hr⟩ | ⟨t, w, s, hs, step⟩
  case inl => exact absurd (String.toList_eq_nil_iff.mp hr) h
  case inr => exact ⟨t, s.tokens, hs, step.start_eq (Scanner.behind_start text)⟩

theorem straysFrom_zero (cs : List Char) : straysFrom cs 0 cs.length = strays cs := by
  rw [straysFrom, strays, List.range_eq_range']

theorem shown_guarded (ctx : Context) {text : String} (h : Guarded text.toList) :
    Shown.ofText ctx text =
      { text   := String.ofList (plain text.toList)
        faults := (strays text.toList).map (strayFault text.toList) } ∧
    ∀ t ∈ Token.scan text, t.kind ≠ .bracketOpen := by
  have ⟨s, e⟩ := (Scanner.start text).exists_steps_tokens
  have hend : s.rest = [] := by simpa using e.rest.symm
  rw [← straysFrom_zero]
  exact e.shown_guarded hend (Scanner.behind_start text) rfl h rfl

-- A text without blocks is shown without its backslashes but for the brackets that they escape, and
-- those that escape nothing are all that is wrong with it.
theorem render_plain (ctx : Context) {text : String} (h : Guarded text.toList) :
    let cs := text.toList
    let r := render ctx text
    r.result = String.ofList (plain cs) ∧ r.errors = [] ∧
    r.parseErrors = ((strays cs).map fun i =>
      ⟨placeOf cs i, "invalid escape sequence \"" ++ strayMark cs i ++ "\""⟩) ∧
    (strays cs = [] → text ≠ "" → ∃ last, (Token.scan text).getLast? = some last ∧
      r.spans = [⟨⟨0, 0⟩, last.span.stop⟩] ∧
      r.code = if ctx.emitCode then some (Code.quote r.result) else none) ∧
    ∀ t : String, '\\' ∉ t.toList → (render ctx (String.ofList (escape t.toList))).result = t := by
  have shown (t : String) (ht : Guarded t.toList) :
      (render ctx t).result = String.ofList (plain t.toList) := by
    rw [(render_eq_shown ctx t).1, (shown_guarded ctx ht).1]
  have ⟨hs, ho⟩ := shown_guarded ctx h
  have ⟨_, hp, he⟩ := render_eq_shown ctx text
  rw [hs] at hp he
  refine ⟨shown text h, by simpa using he, ?parseErrors, ?whole, ?escape⟩
  case parseErrors =>
    rw [hp, List.map_map]
    rfl
  case whole =>
    intro hn ht
    have hf : (Shown.ofText ctx text).faults = [] := by rw [hs, hn]; rfl
    have ⟨t, us, hscan, hstart⟩ := Token.scan_cons ht
    have hk := Source.isProse_of_no_faults ho hf
    have ⟨hspans, hcode⟩ := render_of_run ctx hscan (hscan ▸ hk)
    have hlast := List.getLast?_eq_some_getLast (List.cons_ne_nil t us)
    refine ⟨_, (congrArg _ hscan).trans hlast, ?_, hcode⟩
    rw [hspans, Source.hull, hstart.symm]
    rfl
  case escape =>
    intro t ht
    have hg := Guarded.of_escape t.toList
    rw [← String.toList_ofList (l := escape t.toList)] at hg
    rw [shown _ hg, String.toList_ofList, plain_escape ht, String.ofList_toList]

-- One text has backslashes that escape nothing, and one has none.
theorem render_plain_backslashes :
    let text := "\\\\[é]\\\n|\\"
    let whole := "a\n \\[b"
    let r := render ⟨{}, true⟩ text
    let r' := render ⟨{}, true⟩ whole
    (Guarded text.toList ∧ r.result = "[é]\n|" ∧ r.errors = [] ∧
      r.parseErrors =
        [⟨⟨⟨0, 0⟩, ⟨0, 1⟩⟩, "invalid escape sequence \"\\\\\""⟩,
         ⟨⟨⟨0, 5⟩, ⟨0, 6⟩⟩, "invalid escape sequence \"\\\""⟩,
         ⟨⟨⟨1, 1⟩, ⟨1, 2⟩⟩, "invalid escape sequence \"\\\""⟩]) ∧
    Guarded whole.toList ∧ strays whole.toList = [] ∧ whole ≠ "" ∧
      r'.spans = [⟨⟨0, 0⟩, ⟨1, 4⟩⟩] ∧ r'.code = some "\"a\\n [b\"" := by
  have h : Guarded "\\\\[é]\\\n|\\".toList :=
    .cons (by decide) <| .escaped <| .cons (by decide) <| .cons (by decide) <|
      .cons (by decide) <| .cons (by decide) <| .cons (by decide) <| .cons (by decide) .nil
  have h' : Guarded "a\n \\[b".toList :=
    .cons (by decide) <| .cons (by decide) <| .cons (by decide) <| .escaped <|
      .cons (by decide) .nil
  have ⟨hr, he, hp, _⟩ := render_plain ⟨{}, true⟩ h
  have ⟨hr', _, _, hw, _⟩ := render_plain ⟨{}, true⟩ h'
  have hn : strays "a\n \\[b".toList = [] := by decide
  have ⟨last, hl, hspans, hcode⟩ := hw hn (by decide)
  have hstop : (Token.scan "a\n \\[b").getLast?.map (·.span.stop) = some ⟨1, 4⟩ := by
    decide +kernel
  rw [hl, Option.map_some, Option.some.injEq] at hstop
  refine ⟨⟨h, hr, he, hp⟩, h', hn, by decide, ?spans, ?code⟩
  case spans => rw [hspans, hstop]
  case code  =>
    rw [hcode, hr']
    rfl

end Stencil
