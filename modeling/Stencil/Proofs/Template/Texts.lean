import Stencil.Proofs.Template.Fronts
import Stencil.Proofs.Template.Piece
import Stencil.Proofs.Token.Ahead

namespace Stencil

open Grammar Lexeme Zone

namespace Grammar

variable {a : Bool} {c : Char} {cs ds w next r : List Char}

@[simp]
theorem escape_append : escape (cs ++ ds) = escape cs ++ escape ds :=
  List.flatMap_append

theorem escape_flatMap {α : Type} (f : α → List Char) (l : List α) :
    escape (l.flatMap f) = l.flatMap fun x => escape (f x) :=
  List.flatMap_assoc

theorem escape_bracket : escape ('[' :: cs) = '\\' :: '[' :: escape cs := by
  simp [escape]

theorem escape_cons (h : c ≠ '[') : escape (c :: cs) = c :: escape cs := by
  simp [escape, h]

theorem bracket_mem_proseMarks : '[' ∈ proseMarks a := by
  cases a <;> simp [proseMarks]

theorem escape_of_plain (h : ∀ c ∈ cs, c ∉ proseMarks a) : escape cs = cs := by
  induction cs
  case nil          => rfl
  case cons c cs ih =>
    have hc : c ≠ '[' := fun hc => h c (by simp) (hc ▸ bracket_mem_proseMarks)
    rw [escape_cons hc, ih fun d hd => h d (by simp [hd])]

theorem head?_escape : (escape cs).head? ≠ some '[' := by
  rcases cs with _ | ⟨c, cs⟩
  case nil  => simp [escape]
  case cons =>
    by_cases hc : c = '['
    case pos => simp [hc, escape_bracket]
    case neg => simp [hc, escape_cons]

theorem escape_injective (h : escape cs = escape ds) : cs = ds := by
  induction cs generalizing ds
  case nil =>
    rcases ds with _ | ⟨d, ds⟩
    case nil  => rfl
    case cons => by_cases hd : d = '[' <;> simp [hd, escape] at h
  case cons c cs ih =>
    rcases ds with _ | ⟨d, ds⟩
    case nil  => by_cases hc : c = '[' <;> simp [hc, escape] at h
    case cons =>
      by_cases hc : c = '[' <;> by_cases hd : d = '['
      case pos =>
        rw [hc, hd, escape_bracket, escape_bracket] at h
        rw [hc, hd, ih (by simpa using h)]
      case neg =>
        -- behind the backslash, `ds` goes on with a bracket that is not escaped
        rw [hc, escape_bracket, escape_cons hd] at h
        exact absurd (congrArg List.head? (List.cons.inj h).2.symm) head?_escape
      case pos =>
        rw [hd, escape_bracket, escape_cons hc] at h
        exact absurd (congrArg List.head? (List.cons.inj h).2) head?_escape
      case neg =>
        rw [escape_cons hc, escape_cons hd] at h
        rw [(List.cons.inj h).1, ih (List.cons.inj h).2]

theorem escape_prefix (hw : ∀ c ∈ w, c ∉ proseMarks a) (hr : ∀ c ∈ r.head?, c ∈ proseMarks a)
    (h : w ++ next = escape cs ++ r) : ∃ x, cs = w ++ x ∧ next = escape x ++ r := by
  induction w generalizing cs
  case nil          => exact ⟨cs, rfl, h⟩
  case cons d w ih =>
    have hd := hw d (by simp)
    rcases cs with _ | ⟨c, cs⟩
    case nil  => exact absurd (hr d (by simp [← show _ = r from h])) hd
    case cons =>
      by_cases hc : c = '['
      case pos =>
        rw [hc, escape_bracket] at h
        rw [(List.cons.inj h).1] at hd
        cases a <;> simp [proseMarks] at hd
      case neg =>
        rw [escape_cons hc] at h
        obtain ⟨hdc, h⟩ := List.cons.inj h
        obtain ⟨x, hx, hn⟩ := ih (fun c hc => hw c (by simp [hc])) h
        exact ⟨x, by rw [hdc, hx]; rfl, hn⟩

theorem not_mem_proseMarks (h : c ∉ textMarks a) (hc : c ≠ '[') : c ∉ proseMarks a := by
  cases a <;> simp_all [textMarks, proseMarks]

end Grammar

theorem Source.proseOf_of_ne_escape {src : Source} {t : Token} (h : t.kind ≠ .escape) :
    src.proseOf 0 t = t.slice src.chars := by
  unfold proseOf
  split <;> simp_all

-- Prose shows a text and not how it is escaped.
theorem Source.escape_proseOf {src : Source} {a b : Bool} {zs : List Zone} {t : Token}
    {next : List Char} (r : Reads b next zs t.kind (t.slice src.chars) zs) (hz : Shows a zs)
    (hk : t.kind.isProse = true) : escape (src.proseOf 0 t) = t.slice src.chars := by
  by_cases he : t.kind = .escape
  case pos =>
    rw [he] at r
    rw [r.escape_word.1, Source.proseOf, he]
    rfl
  case neg =>
    rw [Source.proseOf_of_ne_escape he, escape_of_plain (r.prose_plain hz hk he)]

namespace Ahead

variable {a : Bool} {src : Source} {before cs r : List Char} {zs : List Zone} {ts : List Token}

theorem runs_prose (hz : Shows a zs) (hr : ∀ c ∈ r.head?, c ∈ proseMarks a ∧ c ≠ '\\') :
    Runs Token.Kind.isProse zs (fun v => ∃ cs, v = escape cs ∧ ∀ c ∈ cs, c ∉ textMarks a) r where
  more {b next k w zs' v} reads h := by
    rintro ⟨cs, rfl, hcs⟩ hn
    rcases cs with _ | ⟨c, cs⟩
    case nil  => contradiction
    case cons =>
      have hplain := hcs c (by simp)
      have hcs := fun d (hd : d ∈ cs) => hcs d (by simp [hd])
      by_cases hc : c = '['
      case pos =>
        rw [hc, escape_bracket] at h ⊢
        obtain rfl := reads.of_escape h
        obtain ⟨rfl, rfl⟩ := reads.escape_word
        exact ⟨rfl, rfl, escape cs, rfl, cs, rfl, hcs⟩
      case neg =>
        have hb := reads.begins (h.trans (by rw [escape_cons hc, List.cons_append]))
        rw [hz] at hb
        have hne : c ≠ '\\' := by
          rintro rfl
          cases a <;> simp [textMarks] at hplain
        have hk := (hb.isProse_iff hne).mpr (not_mem_proseMarks hplain hc)
        have he : k ≠ .escape := by
          rintro rfl
          exact hne hb
        have hw := reads.prose_plain hz hk he
        have ⟨x, hx, _⟩ := escape_prefix hw (fun c hc => (hr c hc).1) h
        refine ⟨hk, reads.prose_zones hz hk, escape x, ?_, x, rfl, fun d hd => ?_⟩
        · rw [hx, escape_append, escape_of_plain hw]
        · rcases List.mem_cons.mp (hx ▸ List.mem_append_right w hd) with rfl | hd
          case inl => exact hplain
          case inr => exact hcs d hd
  stop {b next k w zs'} reads h := by
    have ⟨c, r', hc, hb⟩ := reads.exists_begins h
    have ⟨hm, hne⟩ := hr c (by simp [hc])
    rw [hz] at hb
    simpa [hm] using hb.isProse_iff hne

theorem prose (h : Ahead src.chars before (escape cs ++ r) zs ts) (hz : Shows a zs)
    (hn : cs ≠ []) (hcs : ∀ c ∈ cs, c ∉ textMarks a)
    (hr : ∀ c ∈ r.head?, c ∈ proseMarks a ∧ c ≠ '\\') :
    ∃ t ts', ts = t :: ts' ∧ t.kind.isProse = true ∧
      (src.prose 0 t (ts'.takeWhile (·.kind.isProse))).erase =
        .text .origin (String.ofList cs) ∧
      Ahead src.chars (before ++ escape cs) r zs (ts'.dropWhile (·.kind.isProse)) := by
  have ⟨hd, hs, ht⟩ := h.run (runs_prose hz hr) ⟨cs, rfl, hcs⟩
  have hcs : (ts.takeWhile (·.kind.isProse)).flatMap (src.proseOf 0) = cs := by
    apply escape_injective
    rw [← hs, escape_flatMap, List.flatMap_def, List.flatMap_def]
    refine congrArg _ (List.map_congr_left fun t hm => ?_)
    have ⟨_, _, reads⟩ := ht t hm
    have hk := List.mem_takeWhile_imp (p := fun t : Token => t.kind.isProse) hm
    exact Source.escape_proseOf reads hz hk
  rcases ts with _ | ⟨t, ts⟩
  case nil  => exact absurd hcs.symm hn
  case cons =>
    by_cases hk : t.kind.isProse = true
    case neg => simp [hk, hn.symm] at hcs
    case pos =>
      simp only [hk, List.takeWhile_cons_of_pos, List.dropWhile_cons_of_pos] at hd hcs
      refine ⟨t, ts, rfl, hk, ?_, hd⟩
      rw [Source.prose, hcs]
      rfl

end Ahead
end Stencil
