import Stencil.Number.Reading
import Stencil.Number.Style
import Stencil.Proofs.Number.Shortest

namespace Stencil
namespace Binary64

-- A numeral consists of digits, digits behind a point if there are any, and maybe an exponent.
structure Numeral where
  whole    : List Char
  fraction : List Char
  exponent : Option Int

namespace Numeral

def pointed : List Char → List Char
  | []      => []
  | c :: cs => '.' :: c :: cs

def power : Option Int → List Char
  | none   => []
  | some e => 'e' :: (toString e).toList

def spell (n : Numeral) : List Char :=
  n.whole ++ (pointed n.fraction ++ power n.exponent)

structure Valid (n : Numeral) : Prop where
  whole_ne_nil    : n.whole ≠ []
  whole_digits    : ∀ c ∈ n.whole, isDigit c = true
  fraction_digits : ∀ c ∈ n.fraction, isDigit c = true

variable {n : Numeral} {negative : Bool} {cs tail : List Char} {c : Char} {e : Int}

theorem takeWhile_digits (hd : ∀ c ∈ cs, isDigit c = true)
    (ht : ∀ c ∈ tail.head?, isDigit c = false) : (cs ++ tail).takeWhile isDigit = cs := by
  rw [List.takeWhile_append_of_pos hd]
  cases tail
  case nil       => simp
  case cons c cs =>
    have hc : isDigit c = false := ht c rfl
    simp [hc]

theorem dropWhile_digits (hd : ∀ c ∈ cs, isDigit c = true)
    (ht : ∀ c ∈ tail.head?, isDigit c = false) : (cs ++ tail).dropWhile isDigit = tail := by
  rw [List.dropWhile_append_of_pos hd]
  cases tail
  case nil       => simp
  case cons c cs =>
    have hc : isDigit c = false := ht c rfl
    simp [hc]

theorem head?_power {e : Option Int} : ∀ c ∈ (power e).head?, isDigit c = false := by
  cases e <;> simp [power, isDigit]

theorem head?_pointed {e : Option Int} :
    ∀ c ∈ (pointed cs ++ power e).head?, isDigit c = false := by
  cases cs
  case nil  => exact head?_power
  case cons => simp [pointed, isDigit]

theorem readFraction_pointed {e : Option Int} (hd : ∀ c ∈ cs, isDigit c = true) :
    readFraction (pointed cs ++ power e) = (cs, power e) := by
  cases cs
  case nil  => cases e <;> simp [pointed, power, readFraction]
  case cons c cs =>
    have ht := takeWhile_digits hd (head?_power (e := e))
    have hr := dropWhile_digits hd (head?_power (e := e))
    simpa [pointed, readFraction] using ⟨ht, hr⟩

-- The digits of a natural number, and of an integer behind its sign.
theorem isDigit_toDigits (n : Nat) : ∀ c ∈ Nat.toDigits 10 n, isDigit c = true :=
  fun _ hc => Nat.isDigit_of_mem_toDigits (by decide) (by decide) hc

theorem digitsValue_eq (cs : List Char) : digitsValue cs = Nat.ofDigitChars 10 cs 0 :=
  rfl

theorem digitsValue_toDigits (n : Nat) : digitsValue (Nat.toDigits 10 n) = n :=
  Nat.ofDigitChars_ten_toDigits

theorem readSign_cons (hc : isDigit c = true) : readSign (c :: cs) = (false, c :: cs) := by
  have hm : c ≠ '-' := by rintro rfl; simp [isDigit] at hc
  have hp : c ≠ '+' := by rintro rfl; simp [isDigit] at hc
  simp [readSign, hm, hp]

theorem readSign_toDigits (n : Nat) :
    readSign (Nat.toDigits 10 n) = (false, Nat.toDigits 10 n) := by
  obtain ⟨c, cs, hn⟩ := List.exists_cons_of_ne_nil (Nat.toDigits_ne_nil (b := 10) (n := n))
  rw [hn, readSign_cons (isDigit_toDigits n c (by simp [hn]))]

theorem readExponent?_cons {m : Nat} (h : readSign cs = (negative, Nat.toDigits 10 m)) :
    readExponent? ('e' :: cs) = some (if negative then -(m : Int) else m) := by
  have hall : (Nat.toDigits 10 m).all isDigit = true := List.all_eq_true.mpr (isDigit_toDigits m)
  simp only [readExponent?, h, hall, digitsValue_toDigits]
  simp

theorem readExponent?_power (e : Option Int) : readExponent? (power e) = some (e.getD 0) := by
  rcases e with _ | m | m
  case none         => rfl
  case some.ofNat   =>
    have hm : (toString (Int.ofNat m)).toList = Nat.toDigits 10 m := Nat.toList_repr
    rw [power, hm, readExponent?_cons (readSign_toDigits m)]
    rfl
  case some.negSucc =>
    have hm : (toString (Int.negSucc m)).toList = '-' :: Nat.toDigits 10 (m + 1) := by
      rw [Int.toString_eq_repr]
      simp [Int.repr]
    have hs : readSign ('-' :: Nat.toDigits 10 (m + 1)) = (true, Nat.toDigits 10 (m + 1)) := rfl
    rw [power, hm, readExponent?_cons hs]
    rfl

-- A numeral is not the name of a special value.
theorem toLower_ne (hc : isDigit c = true) : c.toLower ≠ 'i' ∧ c.toLower ≠ 'n' := by
  have hd : c.isDigit = true := hc
  have hl : c.toLower = c := by
    have hle := (Char.isDigit_iff_toNat.mp hd).2
    refine dif_neg fun hu => ?_
    have hge : 'A'.toNat ≤ c.toNat := UInt32.le_iff_toNat_le.mp hu.1
    exact absurd (hge.trans hle) (by decide)
  rw [hl]
  constructor <;> rintro rfl <;> simp at hd

theorem readSign_spell (h : n.Valid) : readSign n.spell = (false, n.spell) := by
  obtain ⟨c, cs, hc⟩ := List.exists_cons_of_ne_nil h.whole_ne_nil
  rw [spell, hc]
  exact readSign_cons (h.whole_digits c (by simp [hc]))

theorem readUnsigned?_spell (h : n.Valid) :
    readUnsigned? negative n.spell =
    some (ofDecimal negative (digitsValue (n.whole ++ n.fraction))
      (n.exponent.getD 0 - n.fraction.length)) := by
  obtain ⟨c, cs, hc⟩ := List.exists_cons_of_ne_nil h.whole_ne_nil
  have hne := toLower_ne (h.whole_digits c (by simp [hc]))
  have htake : n.spell.takeWhile isDigit = n.whole := takeWhile_digits h.whole_digits head?_pointed
  have hdrop : n.spell.dropWhile isDigit = pointed n.fraction ++ power n.exponent :=
    dropWhile_digits h.whole_digits head?_pointed
  have hi : n.spell.map Char.toLower ≠ "inf".toList := by
    simp [spell, hc, hne]
  have hi' : n.spell.map Char.toLower ≠ "infinity".toList := by
    simp [spell, hc, hne]
  have hn : n.spell.map Char.toLower ≠ "nan".toList := by
    simp [spell, hc, hne]
  simp only [readUnsigned?, hi, hi', hn, htake, hdrop, readFraction_pointed h.fraction_digits,
    readExponent?_power]
  simp [h.whole_ne_nil]

def value (n : Numeral) : ℚ :=
  digitsValue (n.whole ++ n.fraction) * 10 ^ (n.exponent.getD 0 - n.fraction.length)

theorem pointed_of_ne_nil (h : cs ≠ []) : pointed cs = '.' :: cs := by
  cases cs
  case nil  => contradiction
  case cons => rfl

end Numeral

end Binary64

namespace Decimal

open Binary64 (Numeral isDigit digitsValue)
open Binary64.Numeral

variable {d : Decimal}

def value (d : Decimal) : ℚ :=
  d.digits * 10 ^ d.exponent

-- The text is a numeral with the value of the decimal.
def Writes (d : Decimal) (cs : List Char) : Prop :=
  ∃ n : Numeral, n.Valid ∧ n.spell = cs ∧ n.value = d.value

theorem Writes.readSign {cs : List Char} (h : d.Writes cs) :
    Binary64.readSign cs = (false, cs) := by
  obtain ⟨n, hn, rfl, _⟩ := h
  exact readSign_spell hn

theorem digitChars_ne_nil (d : Decimal) : d.digitChars ≠ [] :=
  Nat.toDigits_ne_nil

theorem isDigit_of_mem (d : Decimal) : ∀ c ∈ d.digitChars, isDigit c = true :=
  isDigit_toDigits d.digits

theorem digitsValue_digitChars (d : Decimal) : digitsValue d.digitChars = d.digits :=
  digitsValue_toDigits d.digits

theorem isDigit_replicate (n : Nat) : ∀ c ∈ List.replicate n '0', isDigit c = true := by
  simp +contextual [isDigit]

-- Zeros behind the digits multiply by powers of ten, and zeros before them change nothing.
theorem digitsValue_append_replicate (cs : List Char) (n : Nat) :
    digitsValue (cs ++ List.replicate n '0') = 10 ^ n * digitsValue cs := by
  rw [digitsValue_eq, Nat.ofDigitChars_append, Nat.ofDigitChars_replicate_zero, digitsValue_eq]

theorem digitsValue_replicate_append (cs : List Char) (n : Nat) :
    digitsValue (List.replicate n '0' ++ cs) = digitsValue cs := by
  rw [digitsValue_eq, Nat.ofDigitChars_append, Nat.ofDigitChars_replicate_zero, Nat.mul_zero,
    digitsValue_eq]

theorem writes_whole (he : 0 ≤ d.exponent) :
    d.Writes (d.digitChars ++ List.replicate d.exponent.toNat '0') := by
  refine ⟨⟨d.digitChars ++ List.replicate d.exponent.toNat '0', [], none⟩, ?valid, ?spell, ?value⟩
  case valid =>
    refine ⟨by simp [d.digitChars_ne_nil], fun c hc => ?_, nofun⟩
    exact (List.mem_append.mp hc).elim (d.isDigit_of_mem c) (isDigit_replicate _ c)
  case spell => simp [spell, pointed, power]
  case value =>
    obtain ⟨n, hn⟩ := Int.eq_ofNat_of_zero_le he
    simp [Numeral.value, value, digitsValue_append_replicate, digitsValue_digitChars, hn, mul_comm]

-- The digits with a point among them, and the power of ten that this leaves.
theorem writes_split {w f : List Char} {e : Option Int} (hd : w ++ f = d.digitChars)
    (hw : w ≠ []) (he : e.getD 0 - f.length = d.exponent) :
    d.Writes (w ++ (pointed f ++ power e)) := by
  refine ⟨⟨w, f, e⟩, ⟨hw, fun c hc => ?_, fun c hc => ?_⟩, rfl, ?value⟩
  · exact d.isDigit_of_mem c (hd ▸ List.mem_append_left _ hc)
  · exact d.isDigit_of_mem c (hd ▸ List.mem_append_right _ hc)
  case value => rw [Numeral.value, hd, digitsValue_digitChars, he, value]

theorem writes_fraction {n : Nat} (hn : d.digitChars.length + d.exponent = -n) :
    d.Writes ('0' :: '.' :: (List.replicate n '0' ++ d.digitChars)) := by
  refine ⟨⟨['0'], List.replicate n '0' ++ d.digitChars, none⟩, ⟨by simp, by simp [isDigit], ?_⟩,
    ?spell, ?value⟩
  · exact fun c hc => (List.mem_append.mp hc).elim (isDigit_replicate _ c) (d.isDigit_of_mem c)
  case spell => simp [spell, pointed_of_ne_nil, d.digitChars_ne_nil, power]
  case value =>
    have hv : digitsValue (['0'] ++ (List.replicate n '0' ++ d.digitChars)) = d.digits := by
      rw [← List.append_assoc, List.singleton_append, ← List.replicate_succ,
        digitsValue_replicate_append, digitsValue_digitChars]
    have he : (0 : Int) - (List.replicate n '0' ++ d.digitChars).length = d.exponent := by
      rw [List.length_append, List.length_replicate]
      omega
    rw [Numeral.value, hv, value, ← he]
    rfl

theorem writes_positional (d : Decimal) : d.Writes (d.positional "").toList := by
  dsimp only [positional]
  split_ifs with he hn
  case pos => simpa using writes_whole he
  case pos =>
    obtain ⟨n, hn'⟩ := Int.eq_ofNat_of_zero_le hn.le
    have hlt : n < d.digitChars.length := by omega
    have hd := List.take_append_drop n d.digitChars
    have h := writes_split (e := none) hd (by simp [d.digitChars_ne_nil]; omega) (by simp; omega)
    rw [pointed_of_ne_nil (by simpa using hlt)] at h
    simpa [power, hn'] using h
  case neg =>
    obtain ⟨n, hn'⟩ := Int.exists_eq_neg_ofNat (not_lt.mp hn)
    simpa [hn'] using writes_fraction hn'

theorem writes_scientific (d : Decimal) : d.Writes (d.scientific "").toList := by
  have hlead : d.leading = d.digitChars.length - 1 + d.exponent := rfl
  obtain ⟨c, cs, hd⟩ := List.exists_cons_of_ne_nil d.digitChars_ne_nil
  have h := writes_split (e := some d.leading) (w := [c]) hd.symm (by simp)
    (by simp [hlead, hd])
  cases cs <;> simpa [scientific, hd, pointed, power] using h

end Decimal

namespace Binary64

variable {x : Binary64} {cs : List Char}

theorem magnitude_of_significand_eq_zero (hx : x.significand = 0) : x.magnitude = 0 := by
  have he : x.exponent = -1074 := by
    refine x.significand_ge.resolve_right fun h => ?_
    exact absurd (hx ▸ h) (by decide)
  rw [magnitude_eq, hx, he]
  rfl

-- The shortest decimal reads back.
theorem readUnsigned?_of_writes {tie : Decimal.Tie} (negative : Bool) (hf : x.isFinite = true)
    (h : (x.shortest tie).Writes cs) :
    readUnsigned? negative cs = some (ofWord negative x.magnitude) := by
  obtain ⟨n, hn, rfl, hv⟩ := h
  rw [Numeral.readUnsigned?_spell hn]
  congr 1
  by_cases hx : x.significand = 0
  case pos =>
    rw [shortest, if_pos hx] at hv
    have hz : digitsValue (n.whole ++ n.fraction) = 0 := by
      simpa [Numeral.value, Decimal.value, (ten_zpow_pos _).ne'] using hv
    rw [hz, magnitude_of_significand_eq_zero hx]
    rfl
  case neg =>
    refine ofDecimal_of_nearest hf hx ?_
    have := nearest_shortest hf hx tie
    rw [← Decimal.value, ← hv] at this
    exact this

end Binary64

-- Texts in the style are numerals; only numbers that are not finite have names of their own.
structure NumberStyle.Legible (style : NumberStyle) : Prop where
  whole    : style.whole = ""
  plus     : style.plus = ""
  infinity : ∀ negative,
    Binary64.read? (style.infinity negative).toList = some (.infinity negative)

theorem NumberStyle.legible_code : code.Legible :=
  ⟨rfl, rfl, by decide⟩

namespace Binary64

-- A number can be read from its text.
theorem read?_render {style : NumberStyle} (hs : style.Legible) (hx : x.isNaN = false) :
    read? (x.render style).toList = some x := by
  rw [render, if_neg (by simp [hx])]
  by_cases hi : x.isInfinite = true
  case pos =>
    have hm : x.magnitude = infiniteMagnitude := of_decide_eq_true hi
    rw [if_pos hi, hs.infinity, infinity, ← hm, ofWord_magnitude]
  case neg =>
    have hf : x.isFinite = true := by
      have hle : ¬infiniteMagnitude < x.magnitude := of_decide_eq_false hx
      have hne : ¬x.magnitude = infiniteMagnitude := fun h => hi (decide_eq_true h)
      exact decide_eq_true (by omega)
    have hw : (x.shortest style.tie).Writes
        (if style.isPositional (x.shortest style.tie)
          then (x.shortest style.tie).positional style.whole
          else (x.shortest style.tie).scientific style.plus).toList := by
      rw [hs.whole, hs.plus]
      split
      case isTrue  => exact Decimal.writes_positional _
      case isFalse => exact Decimal.writes_scientific _
    have hr := readUnsigned?_of_writes x.isNegative hf hw
    rw [ofWord_magnitude] at hr
    rw [if_neg hi]
    cases hn : x.isNegative <;> rw [hn] at hr
    case true  => simpa [read?, readSign] using hr
    case false => simpa [read?, hw.readSign] using hr

-- A text for a number is one that the number can be read from. A NaN only has its name.
def Spelled (x : Binary64) (text : String) : Prop :=
  if x.isNaN then text = "NaN" else read? text.toList = some x

theorem spelled_render (x : Binary64) : x.Spelled (x.render .code) := by
  cases hx : x.isNaN
  case true  => simp [Spelled, hx, render, NumberStyle.code]
  case false => simpa [Spelled, hx] using read?_render NumberStyle.legible_code hx

end Binary64
end Stencil
