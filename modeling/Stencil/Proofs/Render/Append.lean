import Stencil.Proofs.Render.Shown
import Stencil.Proofs.Template.Chunk
import Stencil.Proofs.Token.LineStart

namespace Stencil

-- The same problem `n` lines further down.
def Diagnostic.down (d : Diagnostic) (n : Nat) : Diagnostic :=
  { d with span := d.span.down n }

namespace Token

variable {t u : Token} {ts us : List Token}

theorem finish_cons_cons : finish (t :: u :: us) = finish (u :: us) := by
  simp [finish, List.getLast?_cons_cons]

theorem finish_cons_congr (h : t.span.stop = u.span.stop) :
    finish (t :: us) = finish (u :: us) := by
  cases us
  case nil  => simp [finish, h]
  case cons => rw [finish_cons_cons, finish_cons_cons]

theorem finish_append (h : us ≠ []) : finish (ts ++ us) = finish us := by
  rw [finish, finish, List.getLast?_append_of_ne_nil _ h]

theorem finish_map_down (h : ts ≠ []) (n k : Nat) :
    finish (ts.map (·.down n k)) = (finish ts).move (·.down n) := by
  simp [finish, List.getLast?_map, List.getLast?_eq_some_getLast h]
  rfl

end Token

namespace Scanner

variable {s : Scanner} {src : Source} {ctx : Context} {blocks : BlockReader} {before : List Char}

theorem Behind.mark (h : Behind before s) (b : Bool) : Behind before (s.mark b) :=
  ⟨h.line, h.col, h.offset⟩

theorem mark_cases (s : Scanner) :
    (∀ c ∈ s.rest.head?, isBlank c = false) ∨ ∃ c cs, s.rest = c :: cs ∧ isBlank c = true := by
  cases s.rest
  case nil       => exact .inl nofun
  case cons c cs => cases hc : isBlank c <;> simp [hc]

theorem shown_mark (src : Source) (ctx : Context) (blocks : BlockReader)
    (hz : s.zones = [.prose]) (h : Behind before s)
    (hs : src.chars = (before ++ s.rest).toArray) (b : Bool) :
    src.shown ctx blocks (s.mark b).tokens = src.shown ctx blocks (s.mark false).tokens := by
  cases b
  case false => rfl
  rcases s.mark_cases with hb | ⟨c, cs, hr, hc⟩
  case inl => rw [tokens_mark_of_not_blank hb]
  case inr =>
    have ⟨t, u, v, w, s₁, s₂, ht, st, htk, hu, su, huk, hmeet⟩ := tokens_mark hz hr hc
    have htw : t.slice src.chars = v ++ w := hs ▸ st.slice_eq (h.mark false)
    have huv : u.slice src.chars = v := hs ▸ su.slice_eq (h.mark true)
    rw [ht, hu, Source.shown_of_prose (t := t) (by rw [htk]; rfl),
      Source.shown_of_prose (t := u) (by rw [huk]; rfl)]
    simp only [Source.proseOf, htk, huk, htw, huv, List.drop_zero]
    rcases hmeet with ⟨rfl, rfl⟩ | ⟨u', hu', su', hk'⟩
    case inl => rw [List.append_nil]
    case inr =>
      have huw : u'.slice src.chars = w := by
        have := su'.slice_eq (su.behind (h.mark true))
        rwa [List.append_assoc, ← su.rest, mark, ← hs] at this
      rw [hu', Source.shown_of_prose (t := u') (by rw [hk']; rfl), ← Shown.append_assoc]
      simp only [Source.proseOf, hk', huw]
      ext1 <;> simp

theorem finish_mark (hz : s.zones = [.prose]) (b : Bool) :
    Token.finish (s.mark b).tokens = Token.finish (s.mark false).tokens := by
  cases b
  case false => rfl
  rcases s.mark_cases with hb | ⟨c, cs, hr, hc⟩
  case inl => rw [tokens_mark_of_not_blank hb]
  case inr =>
    obtain ⟨t, u, v, w, s₁, s₂, ht, st, htk, hu, su, huk, hmeet⟩ := tokens_mark hz hr hc
    rw [ht, hu]
    rcases hmeet with ⟨rfl, rfl⟩ | ⟨u', hu', su', hk'⟩
    case inl =>
      apply Token.finish_cons_congr
      rw [st.token, su.token]
      simp [mark]
    case inr =>
      obtain ⟨hl, hc, _⟩ := su.place_eq (by simp [huk])
      rw [hu', Token.finish_cons_cons]
      apply Token.finish_cons_congr
      rw [st.token, su'.token, hl, hc]
      simp [mark, Nat.add_assoc]

end Scanner

variable {ctx : Context} {s₁ s₂ : String}

-- Scanning goes on behind the first text as it begins with the second one, but for the line start.
theorem Token.scan_append (s₂ : String) (hend : ∀ c ∈ s₁.toList.getLast?, c = '\n')
    (hz : (Scanner.start s₁).final.zones = [.prose]) :
    ∃ b, scan (s₁ ++ s₂) = scan s₁ ++
      (((Scanner.start s₂).down (s₁.toList.count '\n') s₁.toList.length).mark b).tokens := by
  have ⟨hb, hr⟩ := Scanner.behind_final (Scanner.behind_start s₁)
  have hl : (Scanner.start s₁).final.line = s₁.toList.count '\n' := hb.line
  have hc : (Scanner.start s₁).final.col = (lastLine s₁.toList).length := hb.col
  have ho : _ = s₁.toList.length := hb.offset
  rw [lastLine_eq_nil hend, List.length_nil] at hc
  refine ⟨(Scanner.start s₁).final.lineStart, ?_⟩
  have ha : Scanner.start (s₁ ++ s₂) = (Scanner.start s₁).append s₂.toList := by
    simp [Scanner.start, Scanner.append]
  rw [scan, ha, Scanner.tokens_append hend, scan]
  congr 2
  generalize (Scanner.start s₁).final = e at hr hl hc ho hz ⊢
  rw [hc, Nat.add_zero] at ho
  ext1 <;> simp [Scanner.append, Scanner.mark, Scanner.down, Scanner.start, hr, hl, hz, hc, ho]

theorem copies_scan (s₁ s₂ : String) (hend : ∀ c ∈ s₁.toList.getLast?, c = '\n')
    (hz : (Scanner.start s₁).final.zones = [.prose]) (finish : Span) (vs : List Token) :
    Transfer.Copies
      ⟨id, .ofTokens s₁ (Token.scan s₁), ⟨(s₁ ++ s₂).toList.toArray, finish⟩, vs⟩ 0
      (Token.scan s₁) (Token.scan s₁ ++ vs) := by
  have h := Scanner.copies_tokens (s := Scanner.start s₁) (g := id)
    (c := ⟨id, .ofTokens s₁ (Token.scan s₁), ⟨(s₁ ++ s₂).toList.toArray, finish⟩, vs⟩) ?_
    (.inl (by rw [hz]; rfl))
  · rwa [List.map_id] at h
  · intro t ht
    refine Scanner.copy_of_append (Scanner.behind_start s₁) ht ?_ s₂.toList rfl rfl
      (by simp [Scanner.start])
    have hn : s₁.toList ≠ [] := by
      rintro hn
      rw [Scanner.tokens_eq_nil_iff.mpr hn] at ht
      cases ht
    have hl := List.getLast?_eq_some_getLast hn
    exact hl.trans (congrArg some (hend _ hl))

theorem copies_scan_down (s₁ s₂ : String) (n : Nat) (finish : Span)
    (hf : Token.scan s₂ ≠ [] → finish = (Token.finish (Token.scan s₂)).move (·.down n)) :
    Transfer.Copies
      ⟨(·.down n), .ofTokens s₂ (Token.scan s₂), ⟨(s₁ ++ s₂).toList.toArray, finish⟩, []⟩ 0
      (Token.scan s₂) ((Scanner.start s₂).down n s₁.toList.length).tokens := by
  rw [Scanner.tokens_down, ← List.append_nil (List.map _ _)]
  refine Scanner.copies_tokens (s := Scanner.start s₂) ?_ ?_
  · intro t ht
    exact Scanner.copy_down s₁.toList (Scanner.behind_start s₂) ht rfl rfl (by simp [Scanner.start])
  · by_cases hn : Token.scan s₂ = []
    case neg => exact .inr ⟨rfl, hf hn⟩
    case pos =>
      have hr := Scanner.next?_eq_none_iff.mpr (Scanner.tokens_eq_nil_iff.mp hn)
      rw [Scanner.final_of_next?_none hr]
      exact .inl rfl

theorem Shown.move_id (s : Shown) : s.move id = s := by
  have h {ε : Type} : @Fault.move ε id = id := funext fun _ => rfl
  simp [move, h]

theorem Shown.ofText_append (hend : ∀ c ∈ s₁.toList.getLast?, c = '\n')
    (hz : (Scanner.start s₁).final.zones = [.prose]) :
    ofText ctx (s₁ ++ s₂) =
    ofText ctx s₁ ++ (ofText ctx s₂).move (·.down (s₁.toList.count '\n')) := by
  let n := s₁.toList.count '\n'
  let s := (Scanner.start s₂).down n s₁.toList.length
  have ⟨b, hb⟩ := Token.scan_append s₂ hend hz
  let src := Source.ofTokens (s₁ ++ s₂) (Token.scan s₁ ++ (s.mark b).tokens)
  have h₁ := copies_scan s₁ s₂ hend hz src.finish (s.mark b).tokens
  have h₂ := copies_scan_down s₁ s₂ n src.finish ?finish
  case finish =>
    intro hn
    have hf : Token.finish (s.mark b).tokens = (Token.finish (Token.scan s₂)).move (·.down n) := by
      rw [Scanner.finish_mark rfl b, ← Token.finish_map_down hn n s₁.toList.length, Token.scan,
        ← Scanner.tokens_down]
      rfl
    have hn' : (s.mark b).tokens ≠ [] := by
      intro he
      have hr : (s.mark b).rest = [] := Scanner.tokens_eq_nil_iff.mp he
      exact hn (Scanner.tokens_eq_nil_iff.mpr hr)
    exact (Token.finish_append hn').trans hf
  have hs : Scanner.Behind s₁.toList s := by
    refine ⟨?line, ?col, ?offset⟩
    case line   => simp [s, n, Scanner.down, Scanner.start]
    case col    => simp [s, Scanner.down, Scanner.start, lastLine_eq_nil hend]
    case offset => simp [s, Scanner.down, Scanner.start]
  have hm := s.shown_mark src ctx (src.blocks maxNesting) rfl hs
    (by simp [src, Source.ofTokens, s, Scanner.down, Scanner.start]) b
  have e₁ := Source.shown_of_copies ctx maxNesting _ h₁
  have e₂ := Source.shown_of_copies ctx maxNesting _ h₂
  dsimp only at e₁ e₂
  rw [Source.shown_nil, append_nil] at e₂
  rw [move_id] at e₁
  calc
    _ = src.shown ctx (src.blocks maxNesting) (Token.scan s₁ ++ (s.mark b).tokens) := by
      rw [ofText, hb]
    _ = _ ++ src.shown ctx (src.blocks maxNesting) (s.mark b).tokens := e₁
    _ = _ ++ src.shown ctx (src.blocks maxNesting) s.tokens := by rw [hm]; rfl
    _ = _ := congrArg _ e₂

theorem render_append (ctx : Context) (s₁ s₂ : String)
    (hend : s₁ = "" ∨ s₁.toList.getLast? = some '\n')
    (hz : (Scanner.start s₁).final.zones = [.prose]) :
    (render ctx (s₁ ++ s₂)).result = (render ctx s₁).result ++ (render ctx s₂).result ∧
    (render ctx (s₁ ++ s₂)).parseErrors = (render ctx s₁).parseErrors ++
      (render ctx s₂).parseErrors.map (·.down (s₁.toList.count '\n')) ∧
    (render ctx (s₁ ++ s₂)).errors = (render ctx s₁).errors ++
      (render ctx s₂).errors.map (·.down (s₁.toList.count '\n')) := by
  have hend : ∀ c ∈ s₁.toList.getLast?, c = '\n' := by
    rcases hend with rfl | h
    · simp
    · simp [h]
  have ⟨hr, hp, he⟩ := render_eq_shown ctx (s₁ ++ s₂)
  have ⟨hr₁, hp₁, he₁⟩ := render_eq_shown ctx s₁
  have ⟨hr₂, hp₂, he₂⟩ := render_eq_shown ctx s₂
  rw [hr, hp, he, hr₁, hp₁, he₁, hr₂, hp₂, he₂, Shown.ofText_append hend hz]
  -- a fault that is moved down is worded as before
  refine ⟨rfl, ?faults, ?errors⟩
  case faults =>
    rw [Shown.append_faults, List.map_append, Shown.move, List.map_map, List.map_map]
    rfl
  case errors =>
    rw [Shown.append_errors, List.map_append, Shown.move, List.map_map, List.map_map]
    rfl

theorem render_append_broken_blocks :
    let ctx : Context := ⟨.empty, true⟩
    (Scanner.start "[?|a]\n").final.zones = [.prose] ∧
    (render ctx ("[?|a]\n" ++ "  [b")).result =
      (render ctx "[?|a]\n").result ++ (render ctx "  [b").result ∧
    (render ctx ("[?|a]\n" ++ "  [b")).parseErrors =
      (render ctx "[?|a]\n").parseErrors ++ (render ctx "  [b").parseErrors.map (·.down 1) ∧
    (render ctx ("[?|a]\n" ++ "  [b")).errors =
      (render ctx "[?|a]\n").errors ++ (render ctx "  [b").errors.map (·.down 1) := by
  intro ctx
  have hz : (Scanner.start "[?|a]\n").final.zones = [.prose] := by decide +kernel
  exact ⟨hz, render_append ctx "[?|a]\n" "  [b" (.inr (by decide +kernel)) hz⟩

end Stencil
