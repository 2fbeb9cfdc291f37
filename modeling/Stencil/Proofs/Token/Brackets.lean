import Stencil.Proofs.Token.Nesting
import Stencil.Template.Block

namespace Stencil
namespace Token

-- The number of open blocks behind the tokens, if `d` are open in front of them. There is none if
-- a bracket closes a block where no block is open.
def level? (d : Nat) : List Token → Option Nat
  | []      => some d
  | t :: ts =>
    if t.kind = .bracketOpen then level? (d + 1) ts
    else if t.kind = .bracketClose then
      match d with
      | 0     => none
      | d + 1 => level? d ts
    else level? d ts

-- The bracket `c` closes the block behind whose opening bracket the tokens `inside` stand.
structure Closes (inside : List Token) (c : Token) : Prop where
  kind  : c.kind = .bracketClose
  level : level? 0 inside = some 0

-- Where `d + 1` blocks are open in front of the tokens, `rest` is what stands behind all of them:
-- it follows the first bracket that takes the count below zero. Without such a bracket, nothing
-- stands there.
def Outside (d : Nat) (ts rest : List Token) : Prop :=
  (∃ inside c, ts = inside ++ c :: rest ∧ c.kind = .bracketClose ∧ level? d inside = some 0) ∨
  (rest = [] ∧ level? d ts ≠ none)

def IsBracket (t : Token) : Prop :=
  t.kind = .bracketOpen ∨ t.kind = .bracketClose

variable {d e k : Nat} {t c : Token} {ts us vs : List Token}

-- The kinds in `p` are no brackets.
theorem not_isBracket {p : Token.Kind → Bool} (ho : p .bracketOpen = false)
    (hc : p .bracketClose = false) (h : p t.kind = true) : ¬t.IsBracket := by
  rintro (hk | hk) <;> simp [hk, ho, hc] at h

@[simp]
theorem level?_nil : level? d [] = some d :=
  rfl

theorem level?_open (h : t.kind = .bracketOpen) : level? d (t :: ts) = level? (d + 1) ts := by
  simp [level?, h]

theorem level?_close (h : t.kind = .bracketClose) : level? (d + 1) (t :: ts) = level? d ts := by
  simp [level?, h]

theorem level?_keep (h : ¬t.IsBracket) : level? d (t :: ts) = level? d ts := by
  simp only [IsBracket, not_or] at h
  simp [level?, h]

theorem level?_append (d : Nat) (ts us : List Token) :
    level? d (ts ++ us) = (level? d ts).bind (level? · us) := by
  fun_induction level? d ts
  case case1             => rfl
  case case3             => simp [level?, *]
  case case2 h ih        => rw [List.cons_append, level?_open h, ih]
  case case4 h _ ih      => rw [List.cons_append, level?_close h, ih]
  case case5 ho hc ih    => rw [List.cons_append, level?_keep (by simp [IsBracket, ho, hc]), ih]

theorem exists_level?_of_append (h : level? d (ts ++ us) = some e) :
    ∃ k, level? d ts = some k ∧ level? k us = some e :=
  Option.bind_eq_some_iff.mp (level?_append d ts us ▸ h)

theorem level?_of_no_bracket (h : ∀ t ∈ ts, ¬t.IsBracket) : level? d ts = some d := by
  induction ts
  case nil          => rfl
  case cons t ts ih =>
    have ⟨ht, hts⟩ := List.forall_mem_cons.mp h
    rw [level?_keep ht, ih hts]

-- Blocks that are open in front of the tokens and stay open do not matter.
theorem level?_add (h : level? d ts = some e) (k : Nat) : level? (d + k) ts = some (e + k) := by
  fun_induction level? d ts
  case case1             => simp_all
  case case3             => cases h
  case case2 ho ih       => rw [level?_open ho, Nat.add_right_comm, ih h]
  case case4 hc d ih     => rw [Nat.succ_add, level?_close hc, ih h]
  case case5 ho hc ih    => rw [level?_keep (by simp [IsBracket, ho, hc]), ih h]

-- A block is counted like what stands inside of it.
theorem level?_block (ht : t.kind = .bracketOpen) (hc : c.kind = .bracketClose)
    (hl : level? 0 ts = some d) : level? 0 (t :: (ts ++ [c])) = some d := by
  rw [level?_open ht, level?_append, level?_add hl 1]
  exact level?_close hc

-- Each token in front of `rest` satisfies `P`.
def UpTo (P : Token → Prop) (ts rest : List Token) : Prop :=
  ∃ used, ts = used ++ rest ∧ ∀ u ∈ used, P u

namespace UpTo

variable {P : Token → Prop} {rest : List Token}

theorem refl (P : Token → Prop) (ts : List Token) : UpTo P ts ts :=
  ⟨[], rfl, nofun⟩

theorem cons (ht : P t) (h : UpTo P ts rest) : UpTo P (t :: ts) rest := by
  obtain ⟨used, rfl, hu⟩ := h
  exact ⟨t :: used, rfl, List.forall_mem_cons.mpr ⟨ht, hu⟩⟩

theorem trans (h : UpTo P ts us) (h' : UpTo P us rest) : UpTo P ts rest := by
  obtain ⟨xs, rfl, hx⟩ := h
  obtain ⟨ys, rfl, hy⟩ := h'
  exact ⟨xs ++ ys, (List.append_assoc ..).symm, List.forall_mem_append.mpr ⟨hx, hy⟩⟩

theorem dropWhile {p : Token.Kind → Bool} (hp : ∀ t : Token, p t.kind = true → P t)
    (ts : List Token) : UpTo P ts (ts.dropWhile (p ·.kind)) :=
  ⟨ts.takeWhile (p ·.kind), List.takeWhile_append_dropWhile.symm, fun u hu =>
    hp u (List.mem_takeWhile_imp (p := fun u : Token => p u.kind) hu)⟩

theorem of_forall (h : ∀ u ∈ ts, P u) (hr : rest <:+ ts) : UpTo P ts rest := by
  obtain ⟨used, rfl⟩ := hr
  exact ⟨used, rfl, fun u hu => h u (by simp [hu])⟩

theorem forall_mem (h : UpTo P ts rest) (he : ts = us ++ rest) : ∀ u ∈ us, P u := by
  obtain ⟨used, he', hu⟩ := h
  exact List.append_cancel_right (he.symm.trans he') ▸ hu

theorem forall_mem_run {p : Token → Bool} (h : UpTo P (t :: ts) (ts.dropWhile p)) :
    ∀ u ∈ t :: ts.takeWhile p, P u :=
  h.forall_mem (by rw [List.cons_append, List.takeWhile_append_dropWhile])

theorem head?_of_rest (h : UpTo P ts rest) (hr : ∀ t ∈ rest.head?, P t) : ∀ t ∈ ts.head?, P t := by
  obtain ⟨used, rfl, hu⟩ := h
  cases used
  case nil  => exact hr
  case cons => simpa using hu _ (by simp)

theorem split (h : UpTo P ts rest) (hu : us <:+ ts) (hr : rest <:+ us) :
    UpTo P ts us ∧ UpTo P us rest := by
  obtain ⟨xs, rfl⟩ := hu
  obtain ⟨ys, rfl⟩ := hr
  have h : ∀ u ∈ xs ++ ys, P u := h.forall_mem (List.append_assoc ..).symm
  exact ⟨⟨xs, rfl, fun u hu => h u (by simp [hu])⟩, ⟨ys, rfl, fun u hu => h u (by simp [hu])⟩⟩

theorem head (h : UpTo P (t :: ts) rest) (hr : rest <:+ ts) : P t ∧ UpTo P ts rest := by
  have ⟨ht, h⟩ := h.split (List.suffix_cons t ts) hr
  exact ⟨ht.forall_mem List.singleton_append.symm t (by simp), h⟩

end UpTo

-- No bracket stands in front of `rest`.
def Clear : List Token → List Token → Prop :=
  UpTo (¬·.IsBracket)

theorem Clear.dropWhile {p : Token.Kind → Bool} (ho : p .bracketOpen = false)
    (hc : p .bracketClose = false) (ts : List Token) : Clear ts (ts.dropWhile (p ·.kind)) :=
  UpTo.dropWhile (fun _ => not_isBracket ho hc) ts

theorem Outside.cons {rest : List Token} (h : Outside e ts rest)
    (hl : ∀ us, level? d (t :: us) = level? e us) : Outside d (t :: ts) rest := by
  rw [Outside, hl]
  refine h.imp_left fun ⟨inside, c, he, hc, hi⟩ => ⟨t :: inside, c, ?_, hc, ?_⟩
  · rw [he, List.cons_append]
  · rw [hl, hi]

theorem outside_skipBlock (d : Nat) (ts : List Token) : Outside d ts (skipBlock d ts) := by
  fun_induction skipBlock d ts
  case case1             => exact .inr ⟨rfl, by simp⟩
  case case2 ho ih       => exact ih.cons fun _ => level?_open ho
  case case3 t _ _ hc    => exact .inl ⟨[], t, rfl, hc, rfl⟩
  case case4 hc _ ih     => exact ih.cons fun _ => level?_close hc
  case case5 ho hc ih    => exact ih.cons fun _ => level?_keep (by simp [IsBracket, ho, hc])

theorem Closes.level?_eq_none (h : Closes ts c) (us : List Token) :
    level? 0 (ts ++ c :: us) = none := by
  rw [level?_append, h.level]
  simp [level?, h.kind]

-- No token up to the first bracket stands outside.
theorem Outside.mem_of_clear {rest : List Token} (h : Outside d ts rest) (hu : Clear ts (t :: us)) :
    ∃ used, ts = used ++ rest ∧ t ∈ used := by
  obtain ⟨xs, rfl, hx⟩ := hu
  rcases h with ⟨inside, c, he, hc, -⟩ | ⟨rfl, -⟩
  case inr => exact ⟨xs ++ t :: us, by simp, by simp⟩
  case inl =>
    refine ⟨inside ++ [c], by simpa using he, ?_⟩
    have hc : c ∉ xs := fun h => hx c h (.inr hc)
    rcases List.append_eq_append_iff.mp he with ⟨ys, rfl, hy⟩ | ⟨ys, rfl, hy⟩
    all_goals cases ys <;> simp_all

theorem skipBlock_of_level {inside rest : List Token} (hl : level? d inside = some 0)
    (hc : c.kind = .bracketClose) : skipBlock d (inside ++ c :: rest) = rest := by
  fun_induction level? d inside
  case case1             =>
    obtain rfl := Option.some.inj hl
    simp [skipBlock, hc]
  case case3             => cases hl
  case case2 ho ih       => simpa [skipBlock, ho] using ih hl
  case case4 hc' _ ih    => simpa [skipBlock, hc'] using ih hl
  case case5 ho hc' ih   => simpa [skipBlock, ho, hc'] using ih hl

-- Tokens up to the first bracket do not matter.
theorem skipBlock_of_clear (h : Clear ts us) : skipBlock d us = skipBlock d ts := by
  obtain ⟨used, rfl, hu⟩ := h
  induction used
  case nil          => rfl
  case cons t ts ih =>
    have ⟨ht, hu⟩ := List.forall_mem_cons.mp hu
    simp only [IsBracket, not_or] at ht
    simpa [skipBlock, ht] using ih hu

variable {pipe : Token} {inside : List Token}

-- In the tokens each block is closed, and each pipe is inside of a block.
structure Shut (ts : List Token) : Prop where
  level : level? 0 ts = some 0
  pipe  : ∀ us t vs, ts = us ++ t :: vs → level? 0 us = some 0 → t.kind ≠ .pipe

-- Behind the tokens, the innermost alternative is the one of this pipe.
def InnermostPipe (ts : List Token) (pipe : Token) : Prop :=
  pipe.kind = .pipe ∧ ∃ before between, ts = before ++ pipe :: between ∧ Shut between

namespace Shut

theorem append (hu : Shut us) (hv : Shut vs) : Shut (us ++ vs) := by
  refine ⟨by simp [level?_append, hu.level, hv.level], fun x t y he hx => ?_⟩
  rcases List.append_eq_append_iff.mp he with ⟨z, rfl, hz⟩ | ⟨z, rfl, hz⟩
  case inl => exact hv.pipe z t y hz (by simpa [level?_append, hu.level] using hx)
  case inr =>
    rcases z with _ | ⟨u, z⟩
    case nil  => exact hv.pipe [] t y (by simpa using hz.symm) rfl
    case cons =>
      obtain ⟨rfl, -⟩ := List.cons.inj hz
      exact hu.pipe x t z rfl hx

theorem of_prose (h : ∀ t ∈ ts, t.kind.isProse = true) : Shut ts := by
  refine ⟨level?_of_no_bracket fun t ht => not_isBracket rfl rfl (h t ht), ?_⟩
  rintro us t vs rfl -
  have ht := h t (by simp)
  intro hk
  simp [hk, Kind.isProse] at ht

theorem of_closes (ht : t.kind = .bracketOpen) (hc : Closes inside c) :
    Shut (t :: (inside ++ [c])) := by
  refine ⟨level?_block ht hc.kind hc.level, ?_⟩
  rintro (_ | ⟨u, us⟩) q vs he hl
  case nil  =>
    obtain ⟨rfl, -⟩ := List.cons.inj he
    simp [ht]
  case cons =>
    -- behind the opening bracket, the block is open up to `c`
    obtain ⟨rfl, hu⟩ := List.cons.inj he
    have hp : us <+: inside := by
      rcases List.append_eq_append_iff.mp hu with ⟨z, rfl, hz⟩ | ⟨z, rfl, -⟩
      case inl => cases z <;> simp_all
      case inr => exact List.prefix_append us z
    obtain ⟨z, rfl⟩ := hp
    obtain ⟨k, hk, -⟩ := exists_level?_of_append hc.level
    simp [level?_open ht, level?_add hk 1] at hl

end Shut

theorem InnermostPipe.append (h : InnermostPipe ts pipe) (hu : Shut us) :
    InnermostPipe (ts ++ us) pipe := by
  obtain ⟨hk, before, between, rfl, hb⟩ := h
  exact ⟨hk, before, between ++ us, by simp, hb.append hu⟩

theorem InnermostPipe.behind (h : pipe.kind = .pipe) : InnermostPipe (ts ++ [pipe]) pipe :=
  ⟨h, ts, [], rfl, .of_prose nofun⟩

theorem Shut.of_pipe (hu : Shut (us ++ t :: vs)) (hv : Shut vs) : t.kind ≠ .pipe := by
  intro ht
  obtain ⟨k, hk, hl⟩ := exists_level?_of_append hu.level
  have hv := level?_add hv.level k
  rw [level?_keep (by simp [IsBracket, ht])] at hl
  obtain rfl : k = 0 := by simp_all
  exact hu.pipe us t vs rfl hk ht

theorem InnermostPipe.unique (h : InnermostPipe ts pipe) (h' : InnermostPipe ts t) : pipe = t := by
  obtain ⟨hk, x, y, rfl, hy⟩ := h
  obtain ⟨hk', x', y', he, hy'⟩ := h'
  rcases List.append_eq_append_iff.mp he with ⟨_ | ⟨u, z⟩, rfl, hz⟩ | ⟨_ | ⟨u, z⟩, rfl, hz⟩
  case inl.nil | inr.nil => simp_all
  case inl.cons          =>
    obtain ⟨rfl, rfl⟩ := List.cons.inj hz
    exact absurd hk' (hy.of_pipe hy')
  case inr.cons          =>
    obtain ⟨rfl, rfl⟩ := List.cons.inj hz
    exact absurd hk (hy'.of_pipe hy)

end Token

namespace Zone

-- Leaves the `n` innermost blocks.
def leaveAll? : Nat → List Zone → Option (List Zone)
  | 0, zs     => some zs
  | n + 1, zs => (leave? zs).bind (leaveAll? n)

end Zone

-- A bracket enters or leaves a block, and no other token changes the zones around the innermost
-- one.
theorem Lexeme.Reads.leave?_eq {b : Bool} {zs zs' : List Zone} {k : Token.Kind}
    {w next : List Char} (r : Reads b next zs k w zs') :
    (k = .bracketOpen ∧ Zone.leave? zs' = some zs) ∨
    (k = .bracketClose ∧ Zone.leave? zs = some zs') ∨
    (k ≠ .bracketOpen ∧ k ≠ .bracketClose ∧ Zone.leave? zs' = Zone.leave? zs) := by
  have path {zs zs'} (h : Zone.InPath zs zs') : Zone.leave? zs' = Zone.leave? zs := by
    cases h <;> rfl
  cases r
  case opens     => simp [Zone.leave?]
  case closes    => simp [*]
  case unmatched => simp [*]
  case dot | question | article | name => simp [path ‹_›]
  case pipe      => simpa [Zone.leave?] using path ‹_›
  all_goals simp [Zone.leave?]

namespace Scanner.Steps

open Zone (leaveAll?)

variable {s s' : Scanner} {t c : Token} {ts us inside : List Token} {w : List Char} {d e : Nat}

theorem of_append (h : Steps s (ts ++ us) w s') :
    ∃ v s₁ x, Steps s ts v s₁ ∧ Steps s₁ us x s' := by
  induction ts generalizing s w
  case nil          => exact ⟨[], s, w, .refl s, h⟩
  case cons t ts ih =>
    rcases h with _ | ⟨step, h⟩
    have ⟨v, s₁, x, h₁, h₂⟩ := ih h
    exact ⟨_, s₁, x, .step step h₁, h₂⟩

theorem leaveAll?_eq (h : Steps s ts w s') (hl : Token.level? d ts = some e) :
    leaveAll? (e + 1) s'.zones = leaveAll? (d + 1) s.zones := by
  induction h generalizing d
  case refl => simp_all
  case step t ts _ _ step _ ih =>
    rcases step.reads.leave?_eq with ⟨hk, hz⟩ | ⟨hk, hz⟩ | ⟨ho, hc, hz⟩
    case inl     =>
      rw [ih (Token.level?_open hk ▸ hl)]
      simp [leaveAll?, hz]
    case inr.inl =>
      cases d
      case zero   => simp [Token.level?, hk] at hl
      case succ d =>
        rw [ih (Token.level?_close hk ▸ hl)]
        simp [leaveAll?, hz]
    case inr.inr =>
      have hk : ¬t.IsBracket := by simp [Token.IsBracket, ho, hc]
      rw [ih (Token.level?_keep hk ▸ hl)]
      simp [leaveAll?, hz]

-- Behind a block, a scan is back in the zones in front of it.
theorem zones_of_closes (h : Steps s (t :: (inside ++ [c])) w s') (ht : t.kind = .bracketOpen)
    (hc : Token.Closes inside c) : s'.zones = s.zones := by
  rcases h with _ | ⟨first, h⟩
  have ⟨_, s₂, _, hi, h⟩ := h.of_append
  rcases h with _ | ⟨last, _ | _⟩
  have hf := first.reads.leave?_eq
  have hi := hi.leaveAll?_eq hc.level
  have hl := last.reads.leave?_eq
  simp_all [leaveAll?, hc.kind]

end Scanner.Steps
end Stencil
