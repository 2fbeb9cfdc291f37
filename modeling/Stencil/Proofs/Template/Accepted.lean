import Stencil.Proofs.Template.Reading
import Stencil.Proofs.Template.Tokens

namespace Stencil

open Grammar Lexeme Zone

namespace Source

theorem close_faults_nil {t : Token} {b : Node} {fs : List (Fault SyntaxError)} {ts : List Token}
    (h : (close t b fs ts).faults = []) :
    fs = [] ∧ ∃ c ts', ts = c :: ts' ∧ c.kind = .bracketClose ∧ (close t b fs ts).rest = ts' := by
  unfold close at h ⊢
  split at h <;> simp at h
  case isTrue hc =>
    cases ts <;> simp at hc
    case cons c ts => exact ⟨h, c, ts, rfl, hc, by simp [hc]⟩

-- A block without a fault has a path, and its alternatives end at its closing bracket.
theorem readBlock_faults_nil {src : Source} {inner : BlockReader} {t : Token} {ts : List Token}
    (h : (src.readBlock inner t ts).faults = []) :
    ∃ p rest c ts', src.path (Token.dropSpace ts) = .ok (p, rest) ∧
      (src.alternatives inner (src.argumentsFrom rest).2).faults = [] ∧
      (src.alternatives inner (src.argumentsFrom rest).2).rest = c :: ts' ∧
      c.kind = .bracketClose ∧ (src.readBlock inner t ts).rest = ts' := by
  unfold readBlock at h ⊢
  split at h
  case h_1 => simp at h
  case h_2 p rest hr =>
    have ⟨hf, c, ts', hts, hc, he⟩ := close_faults_nil h
    exact ⟨p, rest, c, ts', hr, hf, hts, hc, he⟩

end Source

namespace Scanner

-- After `s` has read the tokens of the characters `w`, the tokens `ts` are left, those of `s'`.
structure Passes (s : Scanner) (w : List Char) (s' : Scanner) (ts : List Token) : Prop where
  rest   : s.rest = w ++ s'.rest
  tokens : ts = s'.tokens

namespace Passes

variable {s s₁ s₂ : Scanner} {t : Token} {v w : List Char} {ts ts₁ ts₂ : List Token}

theorem refl (h : s.tokens = ts) : Passes s [] s ts :=
  ⟨rfl, h.symm⟩

theorem trans (h₁ : Passes s v s₁ ts₁) (h₂ : Passes s₁ w s₂ ts₂) : Passes s (v ++ w) s₂ ts₂ where
  rest   := by rw [h₁.rest, h₂.rest, List.append_assoc]
  tokens := h₂.tokens

theorem step (h₁ : Step s t v s₁) (h₂ : Passes s₁ w s₂ ts₂) : Passes s (v ++ w) s₂ ts₂ :=
  trans ⟨h₁.rest, rfl⟩ h₂

end Passes

variable {s : Scanner} {ts rest : List Token} {zs : List Zone} {src : Source}

-- Tokens of the kinds `p` stay in the zones `zs`, and in front of a text of the form `G` they make
-- one of this form.
structure Keeps (p : Token.Kind → Bool) (zs : List Zone) (G : List Char → Prop) : Prop where
  nil  : G []
  cons : ∀ {b next k w zs' v}, Reads b next zs k w zs' → p k = true → G v → zs' = zs ∧ G (w ++ v)

theorem passes_dropWhile {p : Token.Kind → Bool} {G : List Char → Prop} (K : Keeps p zs G)
    (h : s.tokens = ts) (hz : s.zones = zs) :
    ∃ w s', Passes s w s' (ts.dropWhile (p ·.kind)) ∧ s'.zones = zs ∧ G w := by
  induction ts generalizing s
  case nil          => exact ⟨[], s, .refl h, hz, K.nil⟩
  case cons t ts ih =>
    by_cases ht : p t.kind = true
    case neg => exact ⟨[], s, .refl (by simp [ht, h]), hz, K.nil⟩
    case pos =>
      have ⟨w, s', hs, step⟩ := step_of_tokens_cons h
      -- the zones stay whatever follows
      have hz' := (K.cons (hz ▸ step.reads) ht K.nil).1
      have ⟨v, s'', hp, hz'', hv⟩ := ih hs.symm hz'
      refine ⟨w ++ v, s'', by simpa [ht] using Passes.step step hp, hz'', ?_⟩
      exact (K.cons (hz ▸ step.reads) ht hv).2

theorem passes_dropSpace (h : s.tokens = ts)
    (hz : current s.zones = .opening ∨ current s.zones = .arguments) :
    ∃ w s', Passes s w s' (Token.dropSpace ts) ∧ s'.zones = s.zones ∧ Spaces w := by
  refine passes_dropWhile ⟨.nil, fun r hk hv => ?_⟩ h rfl
  have ⟨hw, hzs⟩ := r.space_kept hz hk
  exact ⟨hzs, hw.append hv⟩

theorem passes_moreSegments {segs : List Node} (h : s.tokens = ts) (hz : s.zones = .path :: zs)
    (hr : src.moreSegments ts = .ok (segs, rest)) :
    ∃ w s', Passes s w s' rest ∧ s'.zones = .path :: zs ∧ ∀ v, Segment v → Path (v ++ w) := by
  fun_induction src.moreSegments ts generalizing s segs rest
  case case1 | case3 | case6 =>
    simp only [Except.ok.injEq, Prod.mk.injEq] at hr
    exact ⟨[], s, .refl (hr.2 ▸ h), hz, fun v hv => by simpa using Path.last hv⟩
  case case2 | case5 => simp at hr
  case case4 dot t ts hd ht ih =>
    obtain ⟨⟨segs', rest'⟩, hr', he⟩ := exists_of_map_eq_ok hr
    obtain ⟨w₁, s₁, h₁, step₁⟩ := step_of_tokens_cons h
    obtain ⟨w₂, s₂, h₂, step₂⟩ := step_of_tokens_cons h₁.symm
    obtain ⟨hw₁, hz₁⟩ := (hz ▸ hd ▸ step₁.reads).dot_path
    obtain ⟨hi, hw₂⟩ := (hz₁ ▸ step₂.reads).segment ht
    have hz₂ := hi.of_path
    obtain ⟨w, s', hp, hz', hw⟩ := ih h₂.symm hz₂ hr'
    simp only [Prod.mk.injEq] at he
    refine ⟨w₁ ++ (w₂ ++ w), s', he.2 ▸ .step step₁ (.step step₂ hp), hz', fun v hv => ?_⟩
    simpa [hw₁] using Path.dot hv (hw w₂ hw₂)

theorem passes_segments {segs : List Node} (h : s.tokens = ts) (hz : s.zones = .opening :: zs)
    (hr : src.segments ts = .ok (segs, rest)) :
    ∃ w s', Passes s w s' rest ∧ s'.zones = .path :: .opening :: zs ∧ Path w := by
  unfold Source.segments at hr
  split at hr
  case h_1      => simp at hr
  case h_2 t ts =>
    split at hr
    case isFalse   => simp at hr
    case isTrue ht =>
      obtain ⟨⟨segs', rest'⟩, hr', he⟩ := exists_of_map_eq_ok hr
      obtain ⟨w₁, s₁, h₁, step₁⟩ := step_of_tokens_cons h
      obtain ⟨hi, hw₁⟩ := (hz ▸ step₁.reads).segment ht
      obtain ⟨w, s', hp, hz', hw⟩ := passes_moreSegments h₁.symm hi.of_opening hr'
      simp only [Prod.mk.injEq] at he
      exact ⟨w₁ ++ w, s', he.2 ▸ .step step₁ hp, hz', hw w₁ hw₁⟩

theorem passes_path {p : Node} (h : s.tokens = ts) (hz : s.zones = .opening :: zs)
    (hr : src.path ts = .ok (p, rest)) :
    ∃ w m s', Passes s (w ++ m) s' rest ∧ s'.zones = .path :: .opening :: zs ∧ Path w ∧
      (m = [] ∨ m = ['?']) := by
  obtain ⟨⟨segs, rest'⟩, hr', he⟩ := exists_of_map_eq_ok hr
  obtain ⟨w, s', hp, hz', hw⟩ := passes_segments h hz hr'
  have plain (hn : rest' = rest) : Passes s (w ++ []) s' rest := by
    simpa [hn] using hp
  dsimp only at he
  split at he
  case h_1 =>
    simp only [Prod.mk.injEq] at he
    exact ⟨w, [], s', plain he.2, hz', hw, .inl rfl⟩
  case h_2 mark ts =>
    split at he <;> simp only [Prod.mk.injEq] at he
    case isFalse   => exact ⟨w, [], s', plain he.2, hz', hw, .inl rfl⟩
    case isTrue hm =>
      obtain ⟨m, s₂, h₂, step₂⟩ := step_of_tokens_cons hp.tokens.symm
      obtain ⟨hm, hz₂⟩ := (hz' ▸ hm ▸ step₂.reads).question_path
      exact ⟨w, m, s₂, hp.trans ⟨step₂.rest, he.2 ▸ h₂⟩, hz₂, hw, .inr hm⟩

theorem passes_dropWhile_argument (h : s.tokens = ts) (hz : s.zones = .arguments :: zs) :
    ∃ w s', Passes s w s' (ts.dropWhile (·.kind.isArgument)) ∧ s'.zones = .arguments :: zs ∧
      ∀ v, Operand v → Operand (v ++ w) := by
  refine passes_dropWhile ⟨fun v hv => by simpa using hv, fun {_ _ _ w _ x} r hk hx => ?_⟩ h hz
  have ⟨hw, hzs⟩ := r.argument hk
  refine ⟨hzs, fun v hv => ?_⟩
  simpa using hx (v ++ w) (hv.append hw)

theorem passes_argumentsFrom (src : Source) {outer : List Zone} (h : s.tokens = ts)
    (hz : InHead outer s.zones) :
    ∃ w g s', Passes s (w ++ g) s' (src.argumentsFrom ts).2 ∧ InHead outer s'.zones ∧
      Arguments w ∧ Spaces g := by
  fun_induction src.argumentsFrom ts generalizing s
  case case1 => exact ⟨[], [], s, .refl h, hz, .nil, .nil⟩
  case case5 => exact ⟨[], [], s, .refl h, hz, .nil, .nil⟩
  case case2 t ts ht hd | case4 t ts ht _ _ hd _ =>
    obtain ⟨w₁, s₁, h₁, step₁⟩ := step_of_tokens_cons h
    obtain ⟨hw₁, hz₁⟩ := step₁.reads.space_head hz ht
    obtain ⟨w₂, s₂, hp, hz₂, hw₂⟩ := passes_dropSpace h₁.symm (.inr (by rw [hz₁]; rfl))
    rw [hd] at hp
    have hp' := Passes.step step₁ hp
    exact ⟨[], w₁ ++ w₂, s₂, by simpa using hp', hz₂ ▸ hz₁ ▸ .arguments, .nil, hw₁.append hw₂⟩
  case case3 t ts ht a as hd ha args rest' hr ih =>
    obtain ⟨w₁, s₁, h₁, step₁⟩ := step_of_tokens_cons h
    obtain ⟨hw₁, hz₁⟩ := step₁.reads.space_head hz ht
    obtain ⟨w₂, s₂, hp₂, hz₂, hw₂⟩ := passes_dropSpace h₁.symm (.inr (by rw [hz₁]; rfl))
    obtain ⟨w₃, s₃, h₃, step₃⟩ := step_of_tokens_cons (hd ▸ hp₂.tokens.symm)
    have r := step₃.reads
    rw [hz₂, hz₁] at r
    obtain ⟨hw₃, hz₃⟩ := r.argument ha
    obtain ⟨w₄, s₄, hp₄, hz₄, hw₄⟩ := passes_dropWhile_argument h₃.symm hz₃
    obtain ⟨w, g, s', hp, hz', hw, hg⟩ := ih hp₄.tokens.symm (hz₄ ▸ .arguments)
    refine ⟨(w₁ ++ w₂) ++ (w₃ ++ w₄) ++ w, g, s', ?_, hz', ?_, hg⟩
    · simpa [hr] using Passes.step step₁ <| .trans hp₂ <| .step step₃ <| .trans hp₄ hp
    · exact .cons (by simp [step₁.reads.ne_nil]) (hw₁.append hw₂) (hw₄ w₃ hw₃) hw

theorem passes_dropWhile_prose {a : Bool} (h : s.tokens = ts) (hz : Shows a s.zones) :
    ∃ w s', Passes s w s' (ts.dropWhile (·.kind.isProse)) ∧ s'.zones = s.zones ∧
      ∀ block v, Prose block a v → Prose block a (w ++ v) := by
  refine passes_dropWhile ⟨fun _ _ hv => hv, fun r hk hx => ?_⟩ h rfl
  have ⟨hzs, hw⟩ := r.prose_token hz hk
  refine ⟨hzs, fun block v hv => ?_⟩
  rw [List.append_assoc]
  exact hw block _ (hx block v hv)

-- The reader of blocks lets through only what `block` allows.
def Accepts (block : List Char → Prop) (blocks : BlockReader) : Prop :=
  ∀ (t : Token) (s : Scanner) (outer : List Zone),
    s.zones = .opening :: outer → (blocks.read t s.tokens).faults = [] →
    ∃ w s', Passes s w s' (blocks.read t s.tokens).rest ∧ s'.zones = outer ∧ block ('[' :: w)

variable {block : List Char → Prop} {blocks : BlockReader}

theorem passes_pieces (H : Accepts block blocks) (indent : Option Nat) (h : s.tokens = ts)
    (hz : Shows indent.isSome s.zones) (hf : (src.pieces blocks indent ts).faults = []) :
    ∃ w s', Passes s w s' (src.pieces blocks indent ts).rest ∧ s'.zones = s.zones ∧
      Prose block indent.isSome w ∧ (indent = none → s'.rest = []) := by
  fun_induction src.pieces blocks indent ts generalizing s
  case case1 => exact ⟨[], s, .refl h, rfl, .nil, fun _ => tokens_eq_nil_iff.mp h⟩
  case case2 t ts ht found more ih =>
    simp only [List.append_eq_nil_iff] at hf
    obtain ⟨w₁, s₁, h₁, step₁⟩ := step_of_tokens_cons h
    obtain ⟨hw₁, hz₁⟩ := (ht ▸ step₁.reads).open_token hz
    obtain ⟨w₂, s₂, hp₂, hz₂, hw₂⟩ := H t s₁ s.zones hz₁ (h₁ ▸ hf.1)
    obtain ⟨w, s', hp, hz', hw, hn⟩ := ih (h₁ ▸ hp₂.tokens.symm) (hz₂ ▸ hz) hf.2
    refine ⟨w₁ ++ (w₂ ++ w), s', ?_, hz'.trans hz₂, ?_, hn⟩
    · exact .step step₁ (.trans hp₂ hp)
    · simpa [hw₁] using Prose.block hw₂ hw
  case case3 t ts _ ht more ih =>
    obtain ⟨w₁, s₁, h₁, step₁⟩ := step_of_tokens_cons h
    obtain ⟨hz₁, hw₁⟩ := step₁.reads.prose_token hz ht
    obtain ⟨w₂, s₂, hp₂, hz₂, hw₂⟩ := passes_dropWhile_prose h₁.symm (hz₁ ▸ hz)
    obtain ⟨w, s', hp, hz', hw, hn⟩ := ih hp₂.tokens.symm (hz₂ ▸ hz₁ ▸ hz) hf
    refine ⟨w₁ ++ (w₂ ++ w), s', ?_, hz'.trans (hz₂.trans hz₁), ?_, hn⟩
    · exact .step step₁ (.trans hp₂ hp)
    · exact hw₁ block _ (hw₂ block w hw)
  case case4 hi =>
    refine ⟨[], s, .refl h, rfl, .nil, ?_⟩
    rintro rfl
    simp at hi
  case case5 => simp at hf

theorem passes_alternatives (H : Accepts block blocks) {outer : List Zone} (h : s.tokens = ts)
    (hz : leave? s.zones = some outer) (hf : (src.alternatives blocks ts).faults = []) :
    ∃ w s', Passes s w s' (src.alternatives blocks ts).rest ∧ leave? s'.zones = some outer ∧
      Alternatives block w := by
  fun_induction src.alternatives blocks ts generalizing s
  case case1 => exact ⟨[], s, .refl h, hz, .nil⟩
  case case3 => exact ⟨[], s, .refl h, hz, .nil⟩
  case case2 t ts ht first more ih =>
    simp only [List.append_eq_nil_iff] at hf
    obtain ⟨w₁, s₁, h₁, step₁⟩ := step_of_tokens_cons h
    obtain ⟨hw₁, hs₁, hl₁⟩ := (ht ▸ step₁.reads).pipe_results
    obtain ⟨w₂, s₂, hp₂, hz₂, hw₂, _⟩ := passes_pieces H (some (src.indentOf t)) h₁.symm hs₁ hf.1
    obtain ⟨w, s', hp, hz', hw⟩ := ih hp₂.tokens.symm (hz₂ ▸ hl₁ ▸ hz) hf.2
    refine ⟨w₁ ++ (w₂ ++ w), s', .step step₁ (.trans hp₂ hp), hz', ?_⟩
    simpa [hw₁] using Alternatives.cons hw₂ hw

theorem accepts_readBlock (H : Accepts block blocks) :
    ∀ t s outer, s.zones = .opening :: outer → (src.readBlock blocks t s.tokens).faults = [] →
      ∃ w s', Passes s w s' (src.readBlock blocks t s.tokens).rest ∧ s'.zones = outer ∧
        BlockOver block ('[' :: w) := by
  intro t s outer hz hf
  obtain ⟨p, rest, c, ts, hr, hf, hts, hk, he⟩ := src.readBlock_faults_nil hf
  rw [he]
  have hz₀ : current s.zones = .opening := by simp [hz, current]
  obtain ⟨g, s₁, hp₁, hz₁, hg⟩ := passes_dropSpace rfl (.inl hz₀)
  obtain ⟨w, m, s₂, hp₂, hz₂, hw, hm⟩ := passes_path hp₁.tokens.symm (hz₁.trans hz) hr
  have hh : InHead outer s₂.zones := hz₂ ▸ .path
  obtain ⟨v, g', s₃, hp₃, hz₃, hv, hg'⟩ := passes_argumentsFrom src hp₂.tokens.symm hh
  obtain ⟨u, s₄, hp₄, hz₄, hu⟩ := passes_alternatives H hp₃.tokens.symm hz₃.leave?_eq hf
  obtain ⟨e, s₅, h₅, step₅⟩ := step_of_tokens_cons (hts ▸ hp₄.tokens.symm)
  obtain ⟨he, hl⟩ := (hk ▸ step₅.reads).close_leave
  have hp₅ : Passes s₄ e s₅ ts := ⟨step₅.rest, h₅⟩
  refine ⟨_, s₅, hp₁.trans <| hp₂.trans <| hp₃.trans <| hp₄.trans hp₅, ?zones, ?block⟩
  case zones => exact Option.some.inj (hl.symm.trans hz₄)
  case block => simpa [he] using BlockOver.mk hg hw hm hv hg' hu

theorem accepts_blocks (src : Source) (n : Nat) : Accepts (Nested n) (src.blocks n) := by
  induction n
  case zero        => exact fun t s outer hz hf => by simp [Source.blocks] at hf
  case succ n ih   => exact accepts_readBlock ih

end Scanner

namespace Template

-- The parser accepts nothing outside its grammar.
theorem prose_of_read_faults_nil (text : String) (h : (read text).faults = []) :
    Prose (Nested maxNesting) false text.toList := by
  have ⟨w, s', hp, _, hw, hn⟩ :=
    Scanner.passes_pieces (Scanner.accepts_blocks _ maxNesting) none
      (s := Scanner.start text) rfl rfl h
  have : text.toList = w := by simpa [hn rfl, Scanner.start] using hp.rest
  exact this ▸ hw

theorem prose_of_read_nested :
    (read "a [b.c? 1|x [d]|\\[y]").faults = [] ∧
    Prose (Nested maxNesting) false "a [b.c? 1|x [d]|\\[y]".toList :=
  have h : (read "a [b.c? 1|x [d]|\\[y]").faults = [] := by decide +kernel
  ⟨h, prose_of_read_faults_nil _ h⟩

end Template
end Stencil
