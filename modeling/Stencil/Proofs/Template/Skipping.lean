import Stencil.Proofs.Template.Made

namespace Stencil

open Token (UpTo)

namespace Source

-- The fault `f` is one of the faults `fs`, and all others are found at tokens with `P`.
def BlamesBut (src : Source) (P : Token → Prop) (f : Fault SyntaxError)
    (fs : List (Fault SyntaxError)) : Prop :=
  ∃ before after, fs = before ++ f :: after ∧ ∀ g ∈ before ++ after, src.Blames P g

variable {src : Source} {P : Token → Prop} {f : Fault SyntaxError}
  {fs gs : List (Fault SyntaxError)}

theorem BlamesBut.append_left (h : src.BlamesBut P f fs) (hg : ∀ g ∈ gs, src.Blames P g) :
    src.BlamesBut P f (gs ++ fs) := by
  obtain ⟨before, after, rfl, h⟩ := h
  refine ⟨gs ++ before, after, (List.append_assoc ..).symm, ?_⟩
  rw [List.append_assoc]
  exact List.forall_mem_append.mpr ⟨hg, h⟩

theorem BlamesBut.append_right (h : src.BlamesBut P f fs) (hg : ∀ g ∈ gs, src.Blames P g) :
    src.BlamesBut P f (fs ++ gs) := by
  obtain ⟨before, after, rfl, h⟩ := h
  refine ⟨before, after ++ gs, by simp, ?_⟩
  rw [← List.append_assoc]
  exact List.forall_mem_append.mpr ⟨h, hg⟩

end Source

namespace Stage

-- From the stage on, all that is read is made of tokens with `P`, and so are all faults but `f`.
structure Spares (src : Source) (P : Token → Prop) (f : Fault SyntaxError) (s : Stage) : Prop where
  front  : ∀ t ∈ s.ahead.head?, t.kind ≠ .bracketOpen → P t
  nodes  : ∀ n ∈ (s.read src).value, src.MadeOf P n
  faults : src.BlamesBut P f (s.read src).faults
  rest   : ∀ t ∈ (s.read src).rest, P t

variable {src : Source} {P : Token → Prop} {f : Fault SyntaxError} {s s' : Stage} {t : Token}
  {ts : List Token}

-- If only tokens with `P` are ahead, then nothing is read but what is made of them.
theorem madeOf_of_forall (hi : s.IndentsBy src P) (h : ∀ u ∈ s.ahead, P u) :
    (∀ n ∈ (s.read src).value, src.MadeOf P n) ∧ (∀ f ∈ (s.read src).faults, src.Blames P f) ∧
    ∀ t ∈ (s.read src).rest, P t := by
  have hr (t) (ht : t ∈ (s.read src).rest) : P t := h t ((rest_suffix src s).subset ht)
  have hm := madeOf_of_upTo hi (.of_forall h (rest_suffix src s))
  exact ⟨hm.nodes fun t ht => hr t (List.mem_of_mem_head? ht), hm.faults, hr⟩

-- A run of pieces in an alternative never stops at an opening bracket.
theorem rest_head_ne_open (src : Source) (n : Nat) (i : Option Nat) (ts : List Token) :
    ∀ t ∈ ((pieces n i ts).read src).rest.head?, t.kind ≠ .bracketOpen := by
  simp only [read]
  fun_induction src.pieces (src.blocks n) i ts
  case case1          => simp
  case case4 ho _ _   => simpa using ho
  all_goals assumption

-- What is kept apart in the alternatives of a block is kept apart in the block.
theorem spares_block {n : Nat} {p : Node} {us : List Token}
    (hp : src.path (Token.dropSpace ts) = .ok (p, us)) (ht : P t)
    (hu : UpTo P ts (choices src n us).ahead) (hs : (choices src n us).Spares src P f) :
    (∀ b ∈ ((src.blocks (n + 1)).read t ts).value, src.MadeOf P b) ∧
    src.BlamesBut P f ((src.blocks (n + 1)).read t ts).faults ∧
    ∀ u ∈ ((src.blocks (n + 1)).read t ts).rest, P u := by
  have ho := outcome src (n + 1) t ts
  have ⟨hpath, hargs⟩ := Source.madeOf_head hp hu
  generalize (src.blocks (n + 1)).read t ts = block at ho
  rcases ho with _ | h | ⟨h, hr, -⟩ | ⟨h, -⟩ <;> cases hp.symm.trans h
  case kept     =>
    refine ⟨by simpa using .block hpath hargs hs.nodes, hs.faults, fun u hu => hs.rest u ?_⟩
    simp [hr, hu]
  case unclosed =>
    have hb : src.Blames P ⟨t.span, .missingClose⟩ := .token ht (by simp)
    exact ⟨by simp, hs.faults.append_right (List.forall_mem_singleton.mpr hb), hs.rest⟩

theorem Leads.spares (h : Leads src s s') (hi : s.IndentsBy src P) (hu : UpTo P s.ahead s'.ahead)
    (hs : s'.Spares src P f) : s.Spares src P f := by
  have front : ∀ t ∈ s.ahead.head?, t.kind ≠ .bracketOpen → P t := by
    have ⟨t, us, ht, hus⟩ := h.suffix
    rw [ht] at hu ⊢
    simpa using fun _ => (hu.head hus).1
  cases h
  case prose n i t ts hp        =>
    have ⟨_, hn, hf, hr⟩ := hs
    constructor <;> try rw [read_of_prose hp]
    case front  => exact front
    case faults => exact hf
    case rest   => exact hr
    case nodes  => exact List.forall_mem_cons.mpr ⟨.prose hi (UpTo.forall_mem_run hu), hn⟩
  case misplaced ho hp he       =>
    have ⟨_, hn, hf, hr⟩ := hs
    have ⟨ht, _⟩ := hu.head List.suffix_rfl
    constructor <;> try rw [read_of_misplaced ho hp he]
    case front  => exact front
    case nodes  => exact hn
    case faults => exact hf.append_left (List.forall_mem_singleton.mpr (.misplaced ht))
    case rest   => exact hr
  case behind n i t ts ho       =>
    have ⟨_, hn, hf, hr⟩ := hs
    have ⟨ht, hb⟩ := hu.head ((src.finds_blocks n).suffix t ts)
    have ⟨hbv, hbf⟩ := madeOf_block (fun _ _ _ _ _ hc => madeOf_of_upTo trivial hc) ht hb
    constructor <;> try rw [read_of_open ho]
    case front  => exact front
    case nodes  => exact List.forall_mem_append.mpr ⟨by simpa using hbv, hn⟩
    case faults => exact hf.append_left hbf
    case rest   => exact hr
  case inside n i t ts p us ho hp =>
    have ⟨ht, hu⟩ := hu.head (choices_suffix hp)
    have ⟨hbv, hbf, hbr⟩ := spares_block hp ht hu hs
    let more := pieces (n + 1) i ((src.blocks (n + 1)).read t ts).rest
    have ⟨hmn, hmf, hmr⟩ := madeOf_of_forall (s := more) hi hbr
    constructor <;> try rw [read_of_open ho]
    case front  => exact front
    case nodes  => exact List.forall_mem_append.mpr ⟨by simpa using hbv, hmn⟩
    case faults => exact hbf.append_right hmf
    case rest   => exact hmr
  case alternative n t ts hp    =>
    have ⟨_, hn, hf, hr⟩ := hs
    let more := alternatives n ((pieces n (some (src.indentOf t)) ts).read src).rest
    have hi : more.IndentsBy src P := trivial
    have ⟨hmn, hmf, hmr⟩ := madeOf_of_forall hi hr
    constructor <;> try rw [read_of_pipe hp]
    case front  => exact front
    case nodes  =>
      have hfront (t) (ht : t ∈ List.head? _) := hr t (List.mem_of_mem_head? ht)
      exact List.forall_mem_cons.mpr ⟨.gathered hfront hn, hmn⟩
    case faults => exact hf.append_right hmf
    case rest   => exact hmr
  case next n t ts hp           =>
    have ⟨hfront, hn, hf, hr⟩ := hs
    have ⟨ht, hu⟩ := hu.head (rest_suffix src (pieces n (some (src.indentOf t)) ts))
    have hm := madeOf_of_upTo (s := pieces n (some (src.indentOf t)) ts) (.inr ⟨t, ht, rfl⟩) hu
    have hfront (t) (ht : t ∈ List.head? _) := hfront t ht (rest_head_ne_open src _ _ _ t ht)
    constructor <;> try rw [read_of_pipe hp]
    case front  => exact front
    case nodes  => exact List.forall_mem_cons.mpr ⟨.gathered hfront (hm.nodes hfront), hn⟩
    case faults => exact hf.append_left hm.faults
    case rest   => exact hr

-- A fault of such a cause is that of a block which is left out.
theorem exists_rejected (hs : Reaches src ts s) (hf : f ∈ (s.read src).faults)
    (hc : f.cause = .missingIdentifier ∨ f.cause = .tooDeep) :
    ∃ n i t us, Reaches src ts (pieces n i (t :: us)) ∧ t.kind = .bracketOpen ∧
      (src.blocks n).read t us = ⟨none, [f], Token.skipBlock 0 us⟩ := by
  cases faultOrigin_of_mem hs hf
  case deep h ho          => exact ⟨0, _, _, _, h, ho, rfl⟩
  case lost h ho hp       => exact ⟨_, _, _, _, h, ho, read_of_lost hp⟩
  case unclosed           => simp at hc
  case misplaced t _ _    =>
    have hm := src.misplaced_cause_not_mem t
    rcases hc with hc | hc <;> simp [hc] at hm

namespace Reaches

variable {n : Nat} {i : Option Nat}

theorem split (h : Reaches src ts s) (h' : Leads src s s') (hu : UpTo P ts s'.ahead) :
    UpTo P ts s.ahead ∧ UpTo P s.ahead s'.ahead := by
  have ⟨u, us, hus, hsuf⟩ := h'.suffix
  exact UpTo.split hu h.suffix (hsuf.trans (hus ▸ List.suffix_cons u us))

-- Each indent is that of a pipe which reading has passed by.
theorem indentsBy (h : Reaches src ts s) (hu : UpTo P ts s.ahead) : s.IndentsBy src P := by
  induction h
  case refl             => exact .inl rfl
  case tail h h' ih     =>
    have ⟨hu, hu'⟩ := split h h' hu
    have ih := ih hu
    cases h'
    case alternative    => exact .inr ⟨_, (hu'.head List.suffix_rfl).1, rfl⟩
    case inside | next  => trivial
    all_goals exact ih

-- What is spared at a stage is spared when all of the text is read, if all tokens in front of the
-- stage are allowed.
theorem spares (h : Reaches src ts s) (hu : UpTo P ts s.ahead) (hs : s.Spares src P f) :
    (start ts).Spares src P f := by
  induction h
  case refl         => exact hs
  case tail h h' ih =>
    have ⟨hu, hu'⟩ := split h h' hu
    exact ih hu (h'.spares (indentsBy h hu) hu' hs)

end Reaches
end Stage

-- The tokens of a text are all different, for each begins behind the token before it.
theorem Scanner.Steps.nodup {s s' : Scanner} {ts : List Token} {before w : List Char}
    (e : Steps s ts w s') (h : Behind before s) :
    ts.Nodup ∧ ∀ t ∈ ts, before.length ≤ t.first := by
  induction e generalizing before
  case refl         => simp
  case step step _ ih =>
    have hw := List.length_pos_of_ne_nil step.reads.ne_nil
    have hf := step.first_eq h
    have ⟨hn, hts⟩ := ih (step.behind h)
    simp only [List.length_append] at hts
    refine ⟨List.nodup_cons.mpr ⟨fun ht => ?_, hn⟩,
      List.forall_mem_cons.mpr ⟨hf.ge, fun t ht => ?_⟩⟩
    · have := hts _ ht
      omega
    · have := hts t ht
      omega

theorem Token.nodup_scan (text : String) : (scan text).Nodup :=
  have ⟨_, e⟩ := (Scanner.start text).exists_steps_tokens
  (e.nodup (Scanner.behind_start text)).1

-- What is left out of a block: all up to its closing bracket, if there is one.
theorem exists_skipped (ts : List Token) :
    ∃ skipped, ts = skipped ++ Token.skipBlock 0 ts ∧
      ((∃ inside c, skipped = inside ++ [c] ∧ Token.Closes inside c) ∨
        Token.skipBlock 0 ts = [] ∧
          ∀ inside c after, skipped = inside ++ c :: after → ¬Token.Closes inside c) := by
  rcases Token.outside_skipBlock 0 ts with ⟨inside, c, he, hc, hl⟩ | ⟨hr, hl⟩
  case inl => exact ⟨inside ++ [c], by simpa using he, .inl ⟨inside, c, rfl, hc, hl⟩⟩
  case inr =>
    refine ⟨ts, by simp [hr], .inr ⟨hr, ?_⟩⟩
    rintro inside c after rfl hc
    exact hl (hc.level?_eq_none after)

namespace Template

-- Reading the text comes to a block behind the bracket `t`, and rejects it with the fault `f`.
structure Rejects (text : String) (n : Nat) (t : Token) (ts : List Token)
    (f : Fault SyntaxError) : Prop where
  reached : ∃ i, Stage.Reaches (.ofTokens text (Token.scan text)) (Token.scan text)
    (.pieces n i (t :: ts))
  opens   : t.kind = .bracketOpen
  none    : (((Source.ofTokens text (Token.scan text)).blocks n).read t ts).value = none
  last    : (((Source.ofTokens text (Token.scan text)).blocks n).read t ts).faults.getLast? = some f
  cause   : f.cause = .missingIdentifier ∨ f.cause = .tooDeep

theorem Rejects.read_eq {text : String} {n : Nat} {t : Token} {ts : List Token}
    {f : Fault SyntaxError} (h : Rejects text n t ts f) :
    ((Source.ofTokens text (Token.scan text)).blocks n).read t ts =
    ⟨Option.none, [f], Token.skipBlock 0 ts⟩ := by
  obtain ⟨-, -, hv, hf, hc⟩ := h
  have ho := Stage.outcome (.ofTokens text (Token.scan text)) n t ts
  generalize ((Source.ofTokens text (Token.scan text)).blocks n).read t ts = block at ho hv hf
  cases ho
  case deep | lost => simpa using hf
  case kept        => cases hv
  case unclosed    =>
    obtain rfl : (⟨t.span, .missingClose⟩ : Fault SyntaxError) = f := by simpa using hf
    simp at hc

-- A block that is rejected for want of a path, or since it nests too deep, is left out from its
-- opening bracket to the bracket that closes it, or to the end of the text. It is reported once,
-- and the tree and all other faults are those of the tokens outside of it. No other fault of these
-- causes is found.
theorem rejected_block_left_out (text : String) :
    let src := Source.ofTokens text (Token.scan text)
    (∀ n t ts f, Rejects text n t ts f →
      let block := (src.blocks n).read t ts
      ∃ before skipped,
        Token.scan text = before ++ t :: (skipped ++ block.rest) ∧
        ((∃ inside c, skipped = inside ++ [c] ∧ Token.Closes inside c) ∨
          block.rest = [] ∧
            ∀ inside c after, skipped = inside ++ c :: after → ¬Token.Closes inside c) ∧
        block.faults = [f] ∧
        (∀ u ∈ t :: skipped, u ∉ before ++ block.rest) ∧
        src.MadeOf (· ∈ before ++ block.rest) (read text).root ∧
        src.BlamesBut (· ∈ before ++ block.rest) f (read text).faults) ∧
    ∀ f ∈ (read text).faults, f.cause = .missingIdentifier ∨ f.cause = .tooDeep →
      ∃ n t ts, Rejects text n t ts f := by
  intro src
  refine ⟨fun n t ts f h => ?_, fun f hf hc => ?found⟩
  case found =>
    obtain ⟨n, i, t, us, hs, ht, hb⟩ := Stage.exists_rejected .refl hf hc
    exact ⟨n, t, us, ⟨i, hs⟩, ht, by rw [hb], by rw [hb]; rfl, hc⟩
  intro block
  have hblock : block = ⟨none, [f], Token.skipBlock 0 ts⟩ := h.read_eq
  obtain ⟨⟨i, hs⟩, ht, hv, -, -⟩ := h
  obtain ⟨before, hbefore⟩ := hs.suffix
  obtain ⟨skipped, hskipped, hends⟩ := exists_skipped ts
  have hr : block.rest = Token.skipBlock 0 ts := congrArg Parsed.rest hblock
  have hscan : Token.scan text = before ++ t :: (skipped ++ block.rest) := by
    rw [hr, ← hskipped]
    exact hbefore.symm
  let P := (· ∈ before ++ block.rest)
  have hu : UpTo P (Token.scan text) (t :: ts) :=
    ⟨before, hbefore.symm, fun u hu => List.mem_append_left _ hu⟩
  have hi : (Stage.pieces n i (t :: ts)).IndentsBy src P := Stage.Reaches.indentsBy hs hu
  have ⟨hmn, hmf, hmr⟩ := Stage.madeOf_of_forall (s := .pieces n i block.rest) hi
    fun u hu => List.mem_append_right before hu
  have hspares : (Stage.pieces n i (t :: ts)).Spares src P f := by
    constructor <;> try rw [Stage.read_of_open ht]
    case front  => simp [Stage.ahead, ht]
    case nodes  => simpa [show ((src.blocks n).read t ts).value = none from hv] using hmn
    case faults => exact ⟨[], _, congrArg (· ++ _) (congrArg Parsed.faults hblock), hmf⟩
    case rest   => exact hmr
  have ⟨_, hn, hf, hrest⟩ := Stage.Reaches.spares hs hu hspares
  have hroot : src.MadeOf P (read text).root :=
    .gathered (fun u hu => hrest u (List.mem_of_mem_head? hu)) hn
  refine ⟨before, skipped, hscan, hr ▸ hends, by rw [hblock], fun u hu hm => ?_, hroot, hf⟩
  have h : (before ++ (t :: skipped ++ block.rest)).Nodup := hscan ▸ Token.nodup_scan text
  obtain ⟨-, h, hbefore⟩ := List.nodup_append.mp h
  obtain ⟨-, -, hrest⟩ := List.nodup_append.mp h
  rcases List.mem_append.mp hm with hm | hm
  case inl => exact hbefore u hm u (List.mem_append_left _ hu) rfl
  case inr => exact hrest u hu u hm rfl

-- In the block that is left out stand an escape, a backslash out of place and a block.
theorem rejected_block_left_out_in_alternative :
    let text := "x[a|[.|\\[\\q[y]]z]"
    let src := Source.ofTokens text (Token.scan text)
    let f : Fault SyntaxError := ⟨⟨⟨0, 5⟩, ⟨0, 6⟩⟩, .missingIdentifier⟩
    (read text).faults = [f] ∧ ∃ n t ts, Rejects text n t ts f ∧ ∃ before skipped,
      Token.scan text = before ++ t :: (skipped ++ ((src.blocks n).read t ts).rest) ∧
      (∀ u ∈ t :: skipped, u ∉ before ++ ((src.blocks n).read t ts).rest) ∧
      src.MadeOf (· ∈ before ++ ((src.blocks n).read t ts).rest) (read text).root := by
  intro text src f
  have hf : (read text).faults = [f] := by decide +kernel
  have ⟨hleft, hfound⟩ := rejected_block_left_out text
  obtain ⟨n, t, ts, h⟩ := hfound f (by simp [hf]) (.inl rfl)
  obtain ⟨before, skipped, hscan, -, -, hout, hmade, -⟩ := hleft n t ts f h
  exact ⟨hf, n, t, ts, h, before, skipped, hscan, hout, hmade⟩

end Template
end Stencil
