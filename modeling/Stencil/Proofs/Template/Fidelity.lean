import Stencil.Node.Outline
import Stencil.Proofs.Template.Closing
import Stencil.Proofs.Template.Dedent
import Stencil.Proofs.Token.Excerpt

namespace Stencil

open Zone (Shows)

theorem Token.isProse_of_mem_run {t : Token} (ht : t.kind.isProse = true) (ts : List Token) :
    ∀ u ∈ t :: ts.takeWhile (·.kind.isProse), u.kind.isProse = true :=
  ((UpTo.dropWhile (p := Token.Kind.isProse) (fun _ => id) ts).cons ht).forall_mem_run

namespace Scanner.Steps

variable {s s' : Scanner} {ts : List Token} {w : List Char} {a : Bool}

theorem zones_of_prose (e : Steps s ts w s') (hz : Shows a s.zones)
    (h : ∀ t ∈ ts, t.kind.isProse = true) : s'.zones = s.zones := by
  induction e
  case refl            => rfl
  case step step _ ih  =>
    have ⟨ht, hts⟩ := List.forall_mem_cons.mp h
    have hzs := step.reads.prose_zones hz ht
    exact (ih (hzs ▸ hz) hts).trans hzs

end Scanner.Steps

namespace Stage

open Lexeme (blanks)

-- Where pieces with the indent `i` are read, the scanner `s` is in the zones of prose, and no
-- blanks that begin a line are next. The indent is that of the innermost alternative. The tokens
-- `done` and the characters `before` are passed by, and the tokens `ts` are ahead.
structure Meets (text : String) (i : Option Nat) (done ts : List Token) (before : List Char)
    (s : Scanner) : Prop where
  scan      : Token.scan text = done ++ ts
  chars     : text.toList = before ++ s.rest
  behind    : s.Behind before
  tokens    : s.tokens = ts
  zones     : Shows i.isSome s.zones
  lineStart : s.lineStart = true → ∀ t ∈ ts.head?, t.kind.isProse = false
  indent    : ∀ n ∈ i, ∃ pipe, Token.InnermostPipe done pipe ∧
    n = blanks (lineAt text.toList pipe.span.start.line)

-- Somewhere in the text, the stage is met by a scanner.
def Met (text : String) : Stage → Prop
  | pieces _ i ts   => ∃ done before s, Meets text i done ts before s
  | alternatives .. => True

variable {text : String} {i : Option Nat} {done us ts : List Token} {before : List Char}
  {s : Scanner}

theorem meets_start (text : String) :
    Meets text none [] (Token.scan text) [] (.start text) where
  scan      := rfl
  chars     := rfl
  behind    := Scanner.behind_start text
  tokens    := rfl
  zones     := rfl
  lineStart := nofun
  indent    := nofun

namespace Meets

-- Passes by tokens that are shut and lead back to the same zones.
theorem pass (h : Meets text i done (us ++ ts) before s) (hs : Token.Shut us)
    (hz : ∀ w s', Scanner.Steps s us w s' → s'.zones = s.zones ∧
      (s'.lineStart = true → ∀ t ∈ ts.head?, t.kind.isProse = false)) :
    ∃ w s', Scanner.Steps s us w s' ∧ Meets text i (done ++ us) ts (before ++ w) s' := by
  obtain ⟨w, s', e, ht⟩ := Scanner.exists_steps h.tokens
  have ⟨hz, hl⟩ := hz w s' e
  refine ⟨w, s', e, ?scan, ?chars, e.behind h.behind, ht, hz ▸ h.zones, hl, ?indent⟩
  case scan   => rw [h.scan, List.append_assoc]
  case chars  => rw [h.chars, e.rest, List.append_assoc]
  case indent =>
    intro n hn
    obtain ⟨pipe, hp, he⟩ := h.indent n hn
    exact ⟨pipe, hp.append hs, he⟩

theorem pass_prose {t : Token} (h : Meets text i done (t :: ts) before s)
    (ht : t.kind.isProse = true) :
    ∃ w s', Scanner.Steps s (t :: ts.takeWhile (·.kind.isProse)) w s' ∧
      Meets text i (done ++ t :: ts.takeWhile (·.kind.isProse)) (ts.dropWhile (·.kind.isProse))
        (before ++ w) s' := by
  have hk := Token.isProse_of_mem_run ht ts
  have hts : t :: ts = (t :: ts.takeWhile (·.kind.isProse)) ++ ts.dropWhile (·.kind.isProse) := by
    simp
  refine (hts ▸ h).pass (.of_prose hk) fun w s' e => ⟨e.zones_of_prose h.zones hk, fun _ u hu => ?_⟩
  have := List.head?_dropWhile_not (fun u : Token => u.kind.isProse) ts
  rw [Option.mem_def] at hu
  simpa [hu] using this

theorem pass_block {c : Token} {inside : List Token} {t : Token}
    (h : Meets text i done (t :: (inside ++ c :: ts)) before s) (ht : t.kind = .bracketOpen)
    (hc : Token.Closes inside c) :
    ∃ w s', Meets text i (done ++ t :: (inside ++ [c])) ts (before ++ w) s' := by
  have hts : t :: (inside ++ c :: ts) = t :: (inside ++ [c]) ++ ts := by simp
  have ⟨w, s', _, h'⟩ := (hts ▸ h).pass (.of_closes ht hc) fun w s' e =>
    ⟨e.zones_of_closes ht hc, fun hl => ?line⟩
  case line =>
    have e : Scanner.Steps s (t :: inside ++ [c]) w s' := e
    rw [e.lineStart_eq, List.getLast?_concat] at hl
    simp [hc.kind] at hl
  exact ⟨w, s', h'⟩

end Meets

variable {src : Source} {n : Nat} {t : Token} {b : Node} {st st' : Stage}

-- A block without faults is kept, and ends at its own closing bracket.
theorem closes_of_faults_nil (hf : ((src.blocks n).read t ts).faults = []) :
    (∃ b, ((src.blocks n).read t ts).value = some b) ∧
    ∃ inside c, ts = inside ++ c :: ((src.blocks n).read t ts).rest ∧ Token.Closes inside c := by
  have hv : ∃ b, ((src.blocks n).read t ts).value = some b := by
    have ho := outcome src n t ts
    generalize (src.blocks n).read t ts = block at ho hf
    cases ho <;> simp at hf ⊢
  obtain ⟨b, hb⟩ := hv
  obtain ⟨inside, c, hts, hc, hl⟩ := Source.exists_close_of_kept hb
  rw [hf] at hl
  exact ⟨⟨b, hb⟩, inside, c, hts, hc, hl⟩

theorem Leads.met (hs : Reaches (.ofTokens text (Token.scan text)) (Token.scan text) st)
    (hf : (st.read (.ofTokens text (Token.scan text))).faults = []) (hm : st.Met text)
    (h : Leads (.ofTokens text (Token.scan text)) st st') : st'.Met text := by
  cases h
  case inside | next             => trivial
  case misplaced ho hp he        =>
    rw [read_of_misplaced ho hp he] at hf
    cases hf
  case prose ht                  =>
    obtain ⟨done, before, s, hm⟩ := hm
    have ⟨w, s', _, hm⟩ := hm.pass_prose ht
    exact ⟨_, _, s', hm⟩
  case behind ht                 =>
    rw [read_of_open ht, List.append_eq_nil_iff] at hf
    obtain ⟨-, inside, c, hts, hc⟩ := closes_of_faults_nil hf.1
    obtain ⟨done, before, s, hm⟩ := hm
    have ⟨w, s', hm⟩ := Meets.pass_block (hts ▸ hm) ht hc
    exact ⟨_, _, s', hm⟩
  case alternative n t ts ht     =>
    obtain ⟨done, hd⟩ := Reaches.suffix hs
    obtain ⟨before, s, e, htok⟩ := Scanner.exists_steps hd.symm
    obtain ⟨w, s', hts, step⟩ := Scanner.step_of_tokens_cons htok
    have hb := e.behind (Scanner.behind_start text)
    have hc : text.toList = before ++ s.rest := e.rest
    have hi := step.indentOf_eq hb (Token.finish (Token.scan text))
    have hl : s'.lineStart = false := by simp [step.lineStart, ht]
    rw [List.nil_append, ← hc] at hi
    refine ⟨done ++ [t], before ++ w, s', ?_⟩
    constructor
    case scan      => simpa [ahead] using hd.symm
    case chars     => rw [hc, step.rest, List.append_assoc]
    case behind    => exact step.behind hb
    case tokens    => exact hts.symm
    case zones     => exact (ht ▸ step.reads).pipe_results.2.1
    case lineStart => simp [hl]
    case indent    => simpa using ⟨t, .behind ht, hi⟩

-- On the way, scanning meets all stages of a text without faults.
theorem Reaches.met (h : Reaches (.ofTokens text (Token.scan text)) (Token.scan text) st)
    (hf : (Template.read text).faults = []) : st.Met text := by
  induction h
  case refl         => exact ⟨_, _, _, meets_start text⟩
  case tail h h' ih => exact h'.met h (Reaches.faults_nil h hf) ih

-- Without faults, no piece is found only where none is ahead.
theorem rest_eq_of_value_nil (hf : (st.read src).faults = []) (hv : (st.read src).value = []) :
    (st.read src).rest = st.ahead := by
  cases front src st
  case none hr                => rw [hr]
  case prose hp               => simp [read_of_prose hp] at hv
  case misplaced ho hp he     => simp [read_of_misplaced ho hp he] at hf
  case alternative hp         => simp [read_of_pipe hp] at hv
  case block ho               =>
    rw [read_of_open ho, List.append_eq_nil_iff] at hf hv
    obtain ⟨⟨b, hb⟩, -⟩ := closes_of_faults_nil hf.1
    simp [hb] at hv

theorem value_ne_text {v : String} {p : Span} :
    ((src.blocks n).read t ts).value ≠ some (.text p v) := by
  have ho := outcome src n t ts
  generalize (src.blocks n).read t ts = block at ho
  cases ho <;> simp [Source.assemble]

-- A text of the tree says what is written at its place, as it is read in prose from there on.
theorem Origin.exists_meets {a : Bool} {p : Span} {v : String}
    (h : Origin (.ofTokens text (Token.scan text)) (Token.scan text) a (.text p v))
    (hf : (Template.read text).faults = []) :
    ∃ i done ahead before s, a = i.isSome ∧ Meets text i done ahead before s ∧
      p.start = (Token.spanAhead (Token.finish (Token.scan text)) ahead).start ∧
      v.toList = dedent (i.getD 0) (unescape (p.excerpt text.toList)) := by
  generalize hm : Node.text p v = m at h
  cases h
  case block hb => exact absurd (hm ▸ hb) value_ne_text
  case empty n i us hs hv =>
    obtain ⟨done, before, s, hmeets⟩ := hs.met hf
    rw [rest_eq_of_value_nil (Reaches.faults_nil hs hf) hv] at hm
    obtain ⟨rfl, rfl⟩ := Node.text.inj hm
    refine ⟨i, done, us, before, s, rfl, hmeets, rfl, ?_⟩
    simp [Span.excerpt, Span.excerptFrom_point, unescape, dedent]
  case prose n i t us hs ht =>
    obtain ⟨done, before, s, hmeets⟩ := hs.met hf
    obtain ⟨w, s', e, -⟩ := hmeets.pass_prose ht
    obtain ⟨rfl, rfl⟩ := Node.text.inj hm
    refine ⟨i, done, t :: us, before, s, rfl, hmeets, rfl, ?_⟩
    have hx := e.excerpt_hull hmeets.behind
    have hl : s.lineStart = false := by
      by_contra hl
      simpa [ht] using hmeets.lineStart (by simpa using hl) t rfl
    have hw := e.flatMap_proseOf hmeets.behind hmeets.zones (Token.isProse_of_mem_run ht us)
      (Token.finish (Token.scan text)) (i.getD 0)
    rw [← hmeets.chars] at hx hw
    rw [hx, String.toList_ofList]
    exact hw.trans (by rw [hl]; rfl)

end Stage

namespace Template

-- In a template without faults, a text says what is written at its place without the escapes. In an
-- alternative, the blanks behind a line end are indented less by the blanks that begin the line of
-- the pipe of this alternative.
theorem text_eq_dedent_excerpt (text : String) (hf : (read text).faults = []) (a : Bool) (p : Span)
    (v : String) (h : (Node.text p v).Appears a (read text).root) :
    (a = false → v.toList = unescape (p.excerpt text.toList)) ∧
    (a = true → ∃ behind ahead pipe, Token.scan text = behind ++ ahead ∧
      p.start = (Token.spanAhead (Token.finish (Token.scan text)) ahead).start ∧
      (∀ t, Token.InnermostPipe behind t ↔ t = pipe) ∧
      v.toList = dedent (Lexeme.blanks (lineAt text.toList pipe.span.start.line))
        (unescape (p.excerpt text.toList))) := by
  obtain ⟨i, done, ahead, before, s, rfl, hm, hp, hv⟩ :=
    (origin_of_appears .text h).exists_meets hf
  cases i
  case none   => simpa using hv
  case some n =>
    obtain ⟨pipe, hpipe, rfl⟩ := hm.indent n rfl
    have hu (t) : Token.InnermostPipe done t ↔ t = pipe :=
      ⟨fun ht => ht.unique hpipe, fun ht => ht ▸ hpipe⟩
    exact ⟨nofun, fun _ => ⟨done, ahead, pipe, hm.scan, hp, hu, hv⟩⟩

-- The block inside of the alternative has a pipe on a line with a deeper indent.
theorem text_eq_dedent_excerpt_behind_block :
    let text := "[a\n |x\n  y[b\n   |z]\n  \\[w]"
    let m := (read text).root.children[2]!.children[0]!.children[2]!
    (read text).faults = [] ∧ m.span = ⟨⟨3, 6⟩, ⟨4, 5⟩⟩ ∧ m.detail = " \"\\n [w\"" ∧
    ∃ v, m = .text m.span v ∧ m.Appears true (read text).root ∧
    ∃ behind ahead pipe, Token.scan text = behind ++ ahead ∧
      (∀ t, Token.InnermostPipe behind t ↔ t = pipe) ∧
      v.toList = dedent (Lexeme.blanks (lineAt text.toList pipe.span.start.line))
        (unescape (m.span.excerpt text.toList)) := by
  intro text m
  have hf : (read text).faults = [] := by decide +kernel
  have hs : m.span = ⟨⟨3, 6⟩, ⟨4, 5⟩⟩ := by decide +kernel
  have hd : m.detail = " \"\\n [w\"" := by decide +kernel
  have mem (n : Node) (i : Nat) (h : i < n.children.length) : n.children[i]! ∈ n.children := by
    rw [getElem!_pos n.children i h]
    exact List.getElem_mem h
  have ha : m.Appears true (read text).root :=
    have h := Node.Appears.child (by decide +kernel) (mem (read text).root 2 (by decide +kernel)) <|
      .child (by decide +kernel) (mem _ 0 (by decide +kernel)) <|
      .child (by decide +kernel) (mem _ 2 (by decide +kernel)) .refl
    have he : (((false || _) || _) || _) = true := by decide +kernel
    he ▸ h
  obtain ⟨v, hv⟩ : ∃ v, m = .text m.span v := by
    have hk : m.kind = "string" := by decide +kernel
    generalize m = n at hk
    cases n <;> simp [Node.kind] at hk
    case text p v => exact ⟨v, rfl⟩
  obtain ⟨behind, ahead, pipe, hscan, -, hu, hsays⟩ :=
    (text_eq_dedent_excerpt text hf true m.span v (hv ▸ ha)).2 rfl
  exact ⟨hf, hs, hd, v, hv, ha, behind, ahead, pipe, hscan, hu, hsays⟩

end Template
end Stencil
