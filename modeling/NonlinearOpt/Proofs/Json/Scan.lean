import NonlinearOpt.Json.Write
import Mathlib.Tactic.Common

namespace NonlinearOpt.Json

namespace Quoted

theorem hexDigit?_digitChar {n : Nat} (h : n < 16) : hexDigit? (Nat.digitChar n) = some n := by
  revert n
  decide

theorem hex?_control {n : Nat} (h : n < 32) :
    hex? '0' '0' (Nat.digitChar (n / 16)) (Nat.digitChar (n % 16)) = some n := by
  have hzero : hexDigit? '0' = some 0 := rfl
  rw [hex?, hzero, hexDigit?_digitChar (by omega), hexDigit?_digitChar (by omega)]
  show some _ = some n
  congr 1
  omega

theorem scan_control {n : Nat} (h : n < 32) (cs : List Char) :
    scan ('\\' :: 'u' :: '0' :: '0' :: Nat.digitChar (n / 16) :: Nat.digitChar (n % 16) :: cs) =
      (scan cs).push (Char.ofNat n) := by
  have hhigh : isHigh n = false := by simp [isHigh]; omega
  have hlow : isLow n = false := by simp [isLow]; omega
  generalize hcs : '\\' :: 'u' :: '0' :: '0' :: _ = text
  rw [scan.eq_def text]
  split
  case h_3 a b c d a' b' c' d' rest =>
    simp only [List.cons.injEq] at hcs
    obtain ⟨-, -, rfl, rfl, rfl, rfl, rfl⟩ := hcs
    simp only [hex?_control h, hhigh, hlow, Bool.false_eq_true, if_false]
  case h_4 a b c d rest hpair =>
    simp only [List.cons.injEq] at hcs
    obtain ⟨-, -, rfl, rfl, rfl, rfl, rfl⟩ := hcs
    simp only [hex?_control h, hhigh, hlow, Bool.false_eq_true, if_false]
  case h_5 rest hpair hdigits =>
    simp only [List.cons.injEq] at hcs
    exact absurd hcs.2.2.symm (hdigits _ _ _ _ _)
  case h_6 c rest hpair hdigits hshort =>
    simp only [List.cons.injEq] at hcs
    exact (hshort hcs.2.1.symm).elim
  case h_8 c rest hquote hpair hdigits hshort hescape hlast =>
    simp only [List.cons.injEq] at hcs
    exact (hescape _ _ hcs.1.symm hcs.2.symm).elim
  all_goals simp at hcs

theorem scan_escape {e c : Char} (h : escaped? e = some c) (cs : List Char) :
    scan ('\\' :: e :: cs) = (scan cs).push c := by
  have hu : e ≠ 'u' := by
    rintro rfl
    cases h
  generalize hcs : '\\' :: e :: cs = text
  rw [scan.eq_def text]
  split
  case h_6 e' rest hpair hdigits hshort =>
    simp only [List.cons.injEq] at hcs
    obtain ⟨-, rfl, rfl⟩ := hcs
    rw [h]
  case h_8 e' rest hquote hpair hdigits hshort hescape hlast =>
    simp only [List.cons.injEq] at hcs
    exact (hescape _ _ hcs.1.symm hcs.2.symm).elim
  all_goals simp_all

theorem scan_plain {c : Char} (hquote : c ≠ '"') (hslash : c ≠ '\\') (hc : 32 ≤ c.toNat)
    (cs : List Char) : scan (c :: cs) = (scan cs).push c := by
  generalize hcs : c :: cs = text
  rw [scan.eq_def text]
  split
  case h_8 c' rest _ _ _ _ _ _ =>
    simp only [List.cons.injEq] at hcs
    obtain ⟨rfl, rfl⟩ := hcs
    rw [if_neg (Nat.not_lt.mpr hc)]
  all_goals simp_all

theorem scan_written (c : Char) (cs : List Char) :
    scan (written c ++ cs) = (scan cs).push c := by
  unfold written
  split
  case h_8 hquote hslash _ _ _ _ _ =>
    split
    next hc =>
      have hscan := scan_control hc cs
      rwa [Char.ofNat_toNat] at hscan
    next hc => exact scan_plain hquote hslash (Nat.not_lt.mp hc) cs
  all_goals exact scan_escape rfl cs

theorem scan_content (content rest : List Char) :
    scan (content.flatMap written ++ '"' :: rest) = ⟨.ok content, .ok rest⟩ := by
  induction content with
  | nil => rw [List.flatMap_nil, List.nil_append, scan]
  | cons c cs ih =>
    rw [List.flatMap_cons, List.append_assoc, scan_written, ih]
    rfl

end Quoted

structure IsDigits (cs : List Char) : Prop where
  nonempty : cs ≠ []
  digits : ∀ c ∈ cs, c.isDigit = true

def EndsNumber (rest : List Char) : Prop :=
  ∀ c ∈ rest.head?, c.isDigit = false ∧ c ≠ '.' ∧ c ≠ 'e' ∧ c ≠ 'E'

def EndsDigits (rest : List Char) : Prop := ∀ c ∈ rest.head?, c.isDigit = false

theorem EndsNumber.endsDigits {rest : List Char} (h : EndsNumber rest) : EndsDigits rest :=
  fun c hc => (h c hc).1

namespace IsDigits

variable {cs rest : List Char}

theorem takeWhile_append (h : IsDigits cs) (hrest : EndsDigits rest) :
    (cs ++ rest).takeWhile Char.isDigit = cs := by
  rw [List.takeWhile_append_of_pos h.digits]
  cases rest with
  | nil => rw [List.takeWhile_nil, List.append_nil]
  | cons c rest =>
    rw [List.takeWhile_cons_of_neg (by simp [hrest c rfl]), List.append_nil]

theorem dropWhile_append (h : IsDigits cs) (hrest : EndsDigits rest) :
    (cs ++ rest).dropWhile Char.isDigit = rest := by
  rw [List.dropWhile_append_of_pos h.digits]
  cases rest with
  | nil => rfl
  | cons c rest => rw [List.dropWhile_cons_of_neg (by simp [hrest c rfl])]

theorem isDigit_of_append_eq_cons {c : Char} {cs' : List Char} (h : IsDigits cs)
    (heq : cs ++ rest = c :: cs') : c.isDigit = true := by
  cases cs with
  | nil => exact absurd rfl h.nonempty
  | cons d cs =>
    obtain ⟨rfl, -⟩ := List.cons.inj heq
    exact h.digits d List.mem_cons_self

theorem of_subset {cs' : List Char} (h : IsDigits cs) (hne : cs' ≠ []) (hsub : cs' ⊆ cs) :
    IsDigits cs' :=
  ⟨hne, fun c hc => h.digits c (hsub hc)⟩

theorem append (h : IsDigits cs) (hrest : ∀ c ∈ rest, c.isDigit = true) : IsDigits (cs ++ rest) :=
  ⟨List.append_ne_nil_of_left_ne_nil h.nonempty rest,
    List.forall_mem_append.mpr ⟨h.digits, hrest⟩⟩

end IsDigits

namespace Numeral

/-- Numerals as JSON allows them: every part has digits, and the whole part no leading zeros. -/
structure Proper (n : Numeral) : Prop where
  whole : IsDigits n.whole
  leading : n.whole.head? = some '0' → n.whole = ['0']
  fraction : ∀ digits ∈ n.fraction, IsDigits digits
  exponent : ∀ e ∈ n.exponent, IsDigits e.2

def writtenFraction : Option (List Char) → List Char
  | some digits => '.' :: digits
  | none => []

def writtenExponent : Option (Bool × List Char) → List Char
  | some (true, digits) => 'e' :: '-' :: digits
  | some (false, digits) => 'e' :: digits
  | none => []

theorem written_eq (n : Numeral) :
    n.written = (if n.negative then ['-'] else []) ++
      (n.whole ++ (writtenFraction n.fraction ++ writtenExponent n.exponent)) := by
  have hassoc (a b c d : List Char) : a ++ b ++ c ++ d = a ++ (b ++ (c ++ d)) := by
    simp only [List.append_assoc]
  exact hassoc _ _ _ _

theorem scan_exponent {negative : Bool} {whole rest : List Char} {fraction : Option (List Char)}
    {exponent : Option (Bool × List Char)} (h : ∀ e ∈ exponent, IsDigits e.2)
    (hrest : EndsNumber rest) :
    Scanned.exponent negative whole fraction (writtenExponent exponent ++ rest) =
      .token (.number ⟨negative, whole, fraction, exponent⟩) rest := by
  have hends := hrest.endsDigits
  rcases exponent with _ | ⟨_ | _, digits⟩
  · cases rest with
    | nil => rfl
    | cons c rest =>
      have hc := hrest c rfl
      exact if_neg (not_or.mpr hc.2.2)
  all_goals
    have hdigits : IsDigits digits := h _ rfl
    have htake := hdigits.takeWhile_append hends
    have hdrop := hdigits.dropWhile_append hends
    have hsome : digits.isEmpty = false := List.isEmpty_eq_false_iff.mpr hdigits.nonempty
  · show Scanned.exponent negative whole fraction ('e' :: (digits ++ rest)) = _
    simp only [Scanned.exponent, true_or, if_true]
    -- a digit is no sign
    split
    next heq => cases hdigits.isDigit_of_append_eq_cons heq
    next heq => cases hdigits.isDigit_of_append_eq_cons heq
    next => simp only [htake, hdrop, hsome, Bool.false_eq_true, if_false]
  · show Scanned.exponent negative whole fraction ('e' :: '-' :: (digits ++ rest)) = _
    simp only [Scanned.exponent, true_or, if_true, htake, hdrop, hsome, Bool.false_eq_true,
      if_false]

theorem head?_writtenExponent {exponent : Option (Bool × List Char)} {rest : List Char}
    (hrest : EndsNumber rest) {c : Char} (hc : c ∈ (writtenExponent exponent ++ rest).head?) :
    c.isDigit = false ∧ c ≠ '.' := by
  rcases exponent with _ | ⟨_ | _, digits⟩
  · exact ⟨(hrest c hc).1, (hrest c hc).2.1⟩
  all_goals
    cases hc
    decide

theorem scan_number {n : Numeral} (h : n.Proper) {rest : List Char} (hrest : EndsNumber rest) :
    Scanned.number n.negative
      (n.whole ++ (writtenFraction n.fraction ++ (writtenExponent n.exponent ++ rest))) =
        .token (.number n) rest := by
  have hscan : Scanned.exponent n.negative n.whole n.fraction _ = .token (.number n) rest :=
    scan_exponent h.exponent hrest
  have hexponent : EndsDigits (writtenExponent n.exponent ++ rest) :=
    fun c hc => (head?_writtenExponent hrest hc).1
  have hends : EndsDigits (writtenFraction n.fraction ++ (writtenExponent n.exponent ++ rest)) := by
    cases n.fraction with
    | none => exact hexponent
    | some digits =>
      rintro c ⟨⟩
      rfl
  unfold Scanned.number
  simp only [h.whole.takeWhile_append hends, h.whole.dropWhile_append hends]
  split
  next hnil => exact absurd hnil h.whole.nonempty
  next hzero =>
    have hleading := h.leading (by rw [hzero]; rfl)
    rw [hleading] at hzero
    cases hzero
  obtain ⟨negative, whole, fraction, exponent⟩ := n
  cases fraction with
  | none =>
    simp only [writtenFraction, List.nil_append]
    split
    next cs heq =>
      have hpoint : '.' ∈ (writtenExponent exponent ++ rest).head? := by
        rw [heq]
        rfl
      exact absurd rfl (head?_writtenExponent hrest hpoint).2
    next => exact hscan
  | some digits =>
    have hdigits : IsDigits digits := h.fraction digits rfl
    have hsome : digits.isEmpty = false := List.isEmpty_eq_false_iff.mpr hdigits.nonempty
    simp only [writtenFraction, List.cons_append, hdigits.takeWhile_append hexponent,
      hdigits.dropWhile_append hexponent, hsome, Bool.false_eq_true, if_false]
    exact hscan

theorem isDigits_toDigits (n : Nat) : IsDigits (Nat.toDigits 10 n) :=
  ⟨Nat.toDigits_ne_nil, fun _ => Nat.isDigit_of_mem_toDigits (by decide) (by decide)⟩

theorem isDigit_of_mem_zeros {n : Nat} : ∀ c ∈ zeros n, c.isDigit = true := by
  intro c hc
  rw [List.eq_of_mem_replicate hc]
  rfl

theorem head?_toDigits {n : Nat} (h : (Nat.toDigits 10 n).head? = some '0') : n = 0 := by
  induction n using Nat.strongRecOn with
  | _ n ih =>
    by_cases hn : n < 10
    · rw [Nat.toDigits_of_lt_base hn] at h
      exact Nat.digitChar_eq_zero.mp (Option.some.inj h)
    · rw [Nat.toDigits_of_base_le (by decide) (by omega), List.head?_append,
        Option.or_of_isSome (List.isSome_head?.mpr Nat.toDigits_ne_nil)] at h
      have := ih (n / 10) (by omega) h
      omega

theorem proper_ofNat (n : Nat) : (ofNat n).Proper where
  whole := isDigits_toDigits n
  leading h := by
    have hn : n = 0 := head?_toDigits h
    rw [ofNat, hn]
    rfl
  fraction _ h := nomatch h
  exponent _ h := nomatch h

theorem isDigits_zero : IsDigits ['0'] := isDigits_toDigits 0

theorem proper_ofDecimal (d : Decimal) : (ofDecimal d).Proper := by
  have hdigits := isDigits_toDigits d.digits
  have hleading {k : Nat} (h0 : d.digits ≠ 0) (hk : 0 < k) :
      ((Nat.toDigits 10 d.digits).take k).head? ≠ some '0' := by
    rw [List.head?_take, if_neg (Nat.pos_iff_ne_zero.mp hk)]
    exact mt head?_toDigits h0
  have htake {k : Nat} (hk : 0 < k) : IsDigits ((Nat.toDigits 10 d.digits).take k) :=
    hdigits.of_subset (by simp [Nat.pos_iff_ne_zero.mp hk, hdigits.nonempty]) (List.take_subset _ _)
  have hdrop {k : Nat} (hk : k < (Nat.toDigits 10 d.digits).length) :
      IsDigits ((Nat.toDigits 10 d.digits).drop k) :=
    hdigits.of_subset (by simpa using hk) (List.drop_subset _ _)
  simp only [ofDecimal]
  split_ifs with h0 h1 h2 h3 h4
  · exact ⟨isDigits_zero, fun _ => rfl, by rintro _ ⟨⟩; exact isDigits_zero, nofun⟩
  · refine ⟨hdigits.append isDigit_of_mem_zeros, fun h => absurd ?_ h0,
      by rintro _ ⟨⟩; exact isDigits_zero, nofun⟩
    rw [List.head?_append, Option.or_of_isSome (List.isSome_head?.mpr hdigits.nonempty)] at h
    exact head?_toDigits h
  · refine ⟨htake (by omega), fun h => absurd h (hleading h0 (by omega)), ?_, nofun⟩
    rintro _ ⟨⟩
    exact hdrop (by omega)
  · refine ⟨isDigits_zero, fun _ => rfl, ?_, nofun⟩
    rintro _ ⟨⟩
    exact ⟨List.append_ne_nil_of_right_ne_nil _ hdigits.nonempty,
      List.forall_mem_append.mpr ⟨isDigit_of_mem_zeros, hdigits.digits⟩⟩
  · refine ⟨htake Nat.one_pos, fun h => absurd h (hleading h0 Nat.one_pos), nofun, ?_⟩
    rintro _ ⟨⟩
    exact isDigits_toDigits _
  · refine ⟨htake Nat.one_pos, fun h => absurd h (hleading h0 Nat.one_pos), ?_, ?_⟩
    · rintro _ ⟨⟩
      exact hdrop (by omega)
    · rintro _ ⟨⟩
      exact isDigits_toDigits _

end Numeral

namespace Token

def isNumber : Token → Bool
  | number _ => true
  | _ => false

def endsValue : Token → Bool
  | closeBrace | closeBracket | comma => true
  | _ => false

def Proper : Token → Prop
  | number n => n.Proper
  | text (.error _) => False
  | _ => True

theorem endsNumber_written {t : Token} (h : t.endsValue = true) (rest : List Char) :
    EndsNumber (t.written ++ rest) := by
  intro c hc
  cases t with
  | closeBrace | closeBracket | comma =>
    cases hc
    decide
  | _ => cases h

end Token

namespace Scanned

theorem first_of_isDigit {c : Char} (h : c.isDigit = true) (cs : List Char) :
    first c cs = number false (c :: cs) := by
  unfold first
  split
  case h_12 => exact if_pos h
  all_goals cases h

theorem isBlank_of_isDigit {c : Char} (h : c.isDigit = true) : isBlank c = false := by
  simp only [isBlank, Bool.or_eq_false_iff, beq_eq_false_iff_ne]
  refine ⟨⟨⟨?_, ?_⟩, ?_⟩, ?_⟩
  all_goals
    rintro rfl
    cases h

theorem exists_first_of_number {n : Numeral} (h : n.Proper) {rest : List Char}
    (hrest : EndsNumber rest) :
    ∃ c cs, n.written ++ rest = c :: cs ∧ isBlank c = false ∧
      first c cs = .token (.number n) rest := by
  have hscan := Numeral.scan_number h hrest
  rw [Numeral.written_eq]
  cases hnegative : n.negative with
  | true =>
    rw [hnegative] at hscan
    refine ⟨'-', _, ?_, rfl, hscan⟩
    simp only [if_true, List.cons_append, List.nil_append, List.append_assoc]
  | false =>
    rw [hnegative] at hscan
    cases hwhole : n.whole with
    | nil => exact absurd hwhole h.whole.nonempty
    | cons c cs =>
      have hc := h.whole.digits c (by rw [hwhole]; exact List.mem_cons_self)
      rw [hwhole, List.cons_append] at hscan
      refine ⟨c, _, ?_, isBlank_of_isDigit hc, (first_of_isDigit hc _).trans hscan⟩
      simp only [Bool.false_eq_true, if_false, List.nil_append, List.cons_append,
        List.append_assoc]

/-- A token that was written is found again, and the rest is left. -/
theorem exists_first {t : Token} (h : t.Proper) {rest : List Char}
    (hrest : t.isNumber = true → EndsNumber rest) :
    ∃ c cs, t.written ++ rest = c :: cs ∧ isBlank c = false ∧ first c cs = .token t rest := by
  cases t with
  | text content =>
    cases content with
    | error f => exact h.elim
    | ok content =>
      refine ⟨'"', content.flatMap Quoted.written ++ '"' :: rest, by simp [Token.written], rfl, ?_⟩
      simp only [first, Quoted.scan_content]
  | number n => exact exists_first_of_number h (hrest rfl)
  | bool b => cases b <;> exact ⟨_, _, rfl, rfl, rfl⟩
  | _ => exact ⟨_, _, rfl, rfl, rfl⟩

end Scanned

namespace Token

/-- Tokens that can be written one after the other: numbers are followed by punctuation. -/
inductive Spaced : List Token → Prop
  | nil : Spaced []
  | cons {t : Token} {ts : List Token} : t.Proper →
      (t.isNumber = true → ∀ u ∈ ts.head?, u.endsValue = true) → Spaced ts → Spaced (t :: ts)

theorem Spaced.endsNumber {ts : List Token} (hends : ∀ u ∈ ts.head?, u.endsValue = true) :
    EndsNumber (ts.flatMap written) := by
  cases ts with
  | nil => exact fun c hc => nomatch hc
  | cons t ts =>
    rw [List.flatMap_cons]
    exact endsNumber_written (hends t rfl) _

theorem Proper.written_ne_nil {t : Token} (h : t.Proper) : t.written ≠ [] := by
  have hrest : t.isNumber = true → EndsNumber [] := fun _ _ hc => nomatch hc
  obtain ⟨c, cs, hchars, -⟩ := Scanned.exists_first h hrest
  rw [List.append_nil] at hchars
  rw [hchars]
  exact List.cons_ne_nil c cs

theorem Spaced.length_le {ts : List Token} (h : Spaced ts) :
    ts.length ≤ (ts.flatMap written).length := by
  induction h with
  | nil => exact Nat.le_refl 0
  | cons hproper _ _ ih =>
    have := List.length_pos_iff.mpr hproper.written_ne_nil
    rw [List.flatMap_cons, List.length_append, List.length_cons]
    omega

theorem Spaced.plain {t : Token} {ts : List Token} (hproper : t.Proper)
    (hnumber : t.isNumber = false) (h : Spaced ts) : Spaced (t :: ts) :=
  .cons hproper (fun hn => by rw [hnumber] at hn; cases hn) h

end Token

namespace Value

open Token

structure Tail (rest : List Token) : Prop where
  spaced : Spaced rest
  ends : ∀ u ∈ rest.head?, u.endsValue = true

theorem Tail.nil : Tail [] := ⟨.nil, fun _ h => nomatch h⟩

theorem Tail.cons {t : Token} {rest : List Token} (hproper : t.Proper) (hends : t.endsValue = true)
    (h : Spaced rest) : Tail (t :: rest) := by
  refine ⟨.plain hproper ?_ h, ?_⟩
  · cases t with
    | number n => cases hends
    | _ => rfl
  · rintro _ ⟨⟩
    exact hends

theorem Tail.number {n : Numeral} {rest : List Token} (hn : n.Proper) (h : Tail rest) :
    Spaced (.number n :: rest) :=
  .cons hn (fun _ => h.ends) h.spaced

mutual

theorem spaced_tokens : (v : Value) → {rest : List Token} → Tail rest → Spaced (v.tokens ++ rest)
  | null, rest, h => .plain trivial rfl h.spaced
  | number x, rest, h => by
    unfold tokens
    split
    · exact Tail.number (Numeral.proper_ofDecimal _) h
    · exact .plain trivial rfl h.spaced
  | natural n, rest, h => Tail.number (Numeral.proper_ofNat n) h
  | flag b, rest, h => .plain trivial rfl h.spaced
  | text s, rest, h => .plain trivial rfl h.spaced
  | list items, rest, h => by
    unfold tokens
    rw [List.cons_append, List.append_assoc]
    exact .plain trivial rfl (spaced_itemTokens items (Tail.cons trivial rfl h.spaced))
  | record fields, rest, h => by
    unfold tokens
    rw [List.cons_append, List.append_assoc]
    exact .plain trivial rfl (spaced_fieldTokens fields (Tail.cons trivial rfl h.spaced))

theorem spaced_itemTokens : (vs : List Value) → {rest : List Token} → Tail rest →
    Spaced (itemTokens vs ++ rest)
  | [], rest, h => h.spaced
  | [v], rest, h => spaced_tokens v h
  | v :: w :: vs, rest, h => by
    rw [itemTokens, List.append_assoc]
    exact spaced_tokens v (Tail.cons trivial rfl (spaced_itemTokens (w :: vs) h))

theorem spaced_fieldTokens : (fields : List (String × Value)) → {rest : List Token} → Tail rest →
    Spaced (fieldTokens fields ++ rest)
  | [], rest, h => h.spaced
  | [(name, v)], rest, h => .plain trivial rfl (.plain trivial rfl (spaced_tokens v h))
  | (name, v) :: f :: fs, rest, h => by
    rw [fieldTokens, List.cons_append, List.cons_append, List.append_assoc]
    exact .plain trivial rfl (.plain trivial rfl
      (spaced_tokens v (Tail.cons trivial rfl (spaced_fieldTokens (f :: fs) h))))

end

end Value

namespace Stream

def prepend (ts : List Token) (s : Stream) : Stream := ts.foldr .next s

@[simp]
theorem prepend_nil (s : Stream) : prepend [] s = s := rfl

@[simp]
theorem prepend_cons (t : Token) (ts : List Token) (s : Stream) :
    prepend (t :: ts) s = .next t (prepend ts s) := rfl

@[simp]
theorem prepend_append (ts us : List Token) (s : Stream) :
    prepend (ts ++ us) s = prepend ts (prepend us s) :=
  List.foldr_append

theorem ofChars_written {ts : List Token} (h : Token.Spaced ts) {fuel : Nat}
    (hfuel : ts.length ≤ fuel) : ofChars fuel (ts.flatMap Token.written) = prepend ts .done := by
  induction h generalizing fuel with
  | nil => cases fuel <;> rfl
  | @cons t ts hproper hends hspaced ih =>
    cases fuel with
    | zero => cases hfuel
    | succ fuel =>
      obtain ⟨c, cs, hchars, hblank, hfirst⟩ := Scanned.exists_first hproper
        fun hnumber => Token.Spaced.endsNumber (hends hnumber)
      rw [List.flatMap_cons, hchars]
      unfold ofChars
      rw [List.dropWhile_cons_of_neg (by simp [hblank])]
      simp only [hfirst, prepend_cons, ih (Nat.le_of_succ_le_succ hfuel)]

/-- The tokens of a written value are those that it was written from. -/
theorem ofString_write (v : Value) : ofString v.write = prepend v.tokens .done := by
  have hspaced : Token.Spaced v.tokens := List.append_nil v.tokens ▸ v.spaced_tokens .nil
  unfold ofString Value.write
  rw [String.toList_ofList, String.length_ofList]
  exact ofChars_written hspaced hspaced.length_le

end Stream

end NonlinearOpt.Json
