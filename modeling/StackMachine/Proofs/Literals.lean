import Mathlib
import StackMachine.Proofs.Numerals

/-!
# Literals and their grammar

`Literal text v` says, without a reader, which texts stand for a value: the three names, and the numerals of integers
in the fixnum range.

* `Decimal.digits?_eq_some`, `Decimal.int?_eq_some`: the readers of numerals accept what the grammar has, and nothing
  else.
* `literal_cases`: a text is a literal, a numeral of 64 bits that is too large for a fixnum, or neither.
* `parse_text_of_not_isLiteral`: the text of an object reference is no literal.
-/

namespace StackMachine

namespace Decimal

/-- One or more ASCII digits, and the number that they denote. -/
inductive Digits : List Char → Nat → Prop where
  | single {d : Nat} (hd : d < 10) : Digits [d.digitChar] d
  | snoc {cs : List Char} {n d : Nat} (front : Digits cs n) (hd : d < 10) : Digits (cs ++ [d.digitChar]) (10 * n + d)

/-- Digits after at most one sign. -/
inductive Numeral : List Char → Int → Prop where
  | unsigned {cs : List Char} {n : Nat} (digits : Digits cs n) : Numeral cs n
  | plus {cs : List Char} {n : Nat} (digits : Digits cs n) : Numeral ('+' :: cs) n
  | minus {cs : List Char} {n : Nat} (digits : Digits cs n) : Numeral ('-' :: cs) (-n)

/-! ### Digits -/

theorem exists_digitChar {c : Char} (hc : c.isDigit = true) : ∃ d, d < 10 ∧ c = d.digitChar := by
  obtain ⟨hlow, hhigh⟩ := Char.isDigit_iff_toNat.1 hc
  have hzero : '0'.toNat = 48 := rfl
  have hnine : '9'.toNat = 57 := rfl
  have hd : c.toNat - 48 < 10 := by omega
  refine ⟨c.toNat - 48, hd, ?_⟩
  rw [← Char.toNat_inj, Nat.toNat_digitChar_of_lt_ten hd]
  omega

/-- A further digit at the end. -/
private theorem ofDigitChars_snoc (cs : List Char) {d : Nat} (hd : d < 10) :
    Nat.ofDigitChars 10 (cs ++ [d.digitChar]) 0 = 10 * Nat.ofDigitChars 10 cs 0 + d := by
  have hvalue : d.digitChar.toNat - '0'.toNat = d := Nat.toNat_digitChar_sub_48_of_lt_ten hd
  rw [Nat.ofDigitChars_append, Nat.ofDigitChars_cons, Nat.ofDigitChars_nil, hvalue]

theorem Digits.ne_nil {cs : List Char} {n : Nat} (h : Digits cs n) : cs ≠ [] := by
  cases h <;> simp

theorem Digits.all_isDigit {cs : List Char} {n : Nat} (h : Digits cs n) : cs.all Char.isDigit = true := by
  induction h with
  | single hd => simp [Nat.isDigit_digitChar, hd]
  | snoc _ hd ih => simp [ih, Nat.isDigit_digitChar, hd]

theorem Digits.ofDigitChars_eq {cs : List Char} {n : Nat} (h : Digits cs n) : Nat.ofDigitChars 10 cs 0 = n := by
  induction h with
  | single hd => simpa using ofDigitChars_snoc [] hd
  | @snoc cs n d _ hd ih => rw [ofDigitChars_snoc cs hd, ih]

/-- Digits denote the number that is read off them. -/
theorem digits_ofDigitChars {cs : List Char} (hne : cs ≠ []) (hall : cs.all Char.isDigit = true) :
    Digits cs (Nat.ofDigitChars 10 cs 0) := by
  -- induction from the right: the last digit is the one that the rest is multiplied for
  induction cs using List.reverseRecOn with
  | nil => exact absurd rfl hne
  | append_singleton cs c ih =>
    rw [List.all_append, Bool.and_eq_true, List.all_cons, List.all_nil, Bool.and_true] at hall
    obtain ⟨d, hd, rfl⟩ := exists_digitChar hall.2
    rw [ofDigitChars_snoc cs hd]
    by_cases hcs : cs = []
    · subst hcs
      simpa using Digits.single hd
    · exact (ih hcs hall.1).snoc hd

theorem digits?_eq_some {cs : List Char} {n : Nat} : digits? cs = some n ↔ Digits cs n := by
  constructor
  · intro h
    unfold digits? at h
    split at h
    · rename_i hcs
      cases h
      exact digits_ofDigitChars hcs.1 hcs.2
    · cases h
  · intro h
    rw [digits?, if_pos ⟨h.ne_nil, h.all_isDigit⟩, h.ofDigitChars_eq]

/-! ### Signs -/

theorem not_digits_sign {c : Char} {cs : List Char} {n : Nat} (hc : c.isDigit = false) : ¬Digits (c :: cs) n := by
  intro h
  have hall := h.all_isDigit
  rw [List.all_cons, hc] at hall
  cases hall

private theorem signed_eq_some {o : Option Nat} {sign : Int → Int} {n : Int} :
    Option.map sign (do let k ← o; pure (k : Int)) = some n ↔ ∃ k : Nat, o = some k ∧ sign k = n := by
  cases o <;> simp

theorem int?_eq_some {cs : List Char} {n : Int} : int? cs = some n ↔ Numeral cs n := by
  constructor
  · intro h
    unfold int? at h
    split at h <;> obtain ⟨k, hk, rfl⟩ := signed_eq_some.1 h
    · exact .minus (digits?_eq_some.1 hk)
    · exact .plus (digits?_eq_some.1 hk)
    · exact .unsigned (digits?_eq_some.1 hk)
  · intro h
    cases h with
    | plus digits | minus digits => exact signed_eq_some.2 ⟨_, digits?_eq_some.2 digits, rfl⟩
    | unsigned digits =>
      unfold int?
      split
      · exact absurd digits (not_digits_sign rfl)
      · exact absurd digits (not_digits_sign rfl)
      · exact signed_eq_some.2 ⟨_, digits?_eq_some.2 digits, rfl⟩

/-- A text is the numeral of one integer at most. -/
theorem Numeral.unique {cs : List Char} {m n : Int} (hm : Numeral cs m) (hn : Numeral cs n) : m = n :=
  Option.some.inj ((int?_eq_some.2 hm).symm.trans (int?_eq_some.2 hn))

end Decimal

namespace Value

/-- The texts that stand for a value in a program. -/
inductive Literal : String → Value → Prop where
  | nil : Literal "nil" .nil
  | true : Literal "true" .true
  | false : Literal "false" .false
  | integer {text : String} {n : Int} (numeral : Decimal.Numeral text.toList n) (low : -2 ^ 62 ≤ n)
      (high : n ≤ 2 ^ 62 - 1) : Literal text (.ofInt n)

/-- A numeral is none of the names. -/
theorem numeral_ne_name {text : String} {n : Int} (h : Decimal.Numeral text.toList n) :
    text ≠ "nil" ∧ text ≠ "true" ∧ text ≠ "false" := by
  have hname : ∀ name : String, Decimal.int? name.toList = none → text ≠ name := by
    rintro _ hnone rfl
    rw [Decimal.int?_eq_some.2 h] at hnone
    cases hnone
  exact ⟨hname _ rfl, hname _ rfl, hname _ rfl⟩

/-- The numerals that are read as integers of 64 bits. -/
theorem int64?_eq_some {cs : List Char} {n : Int64} : Decimal.int64? cs = some n ↔ Decimal.Numeral cs n.toInt := by
  rw [← Decimal.int?_eq_some, Decimal.int64?, Option.bind_eq_some_iff]
  constructor
  · rintro ⟨k, hk, hword⟩
    unfold Word.int64? at hword
    split at hword
    · rename_i hrange
      cases hword
      rw [hk, Int64.toInt_ofInt_of_le hrange.1 (Int.lt_of_le_sub_one hrange.2)]
    · cases hword
  · intro h
    exact ⟨n.toInt, h, by rw [Word.int64?, if_pos ⟨n.minValue_le_toInt, n.toInt_le⟩, Int64.ofInt_toInt]⟩

/-! ### Reading a literal -/

variable {text : String} {n : Int}

private theorem parse_of_ne_name (h : text ≠ "nil" ∧ text ≠ "true" ∧ text ≠ "false") :
    (∀ w, Decimal.int64? text.toList = some w → ∀ v, ofInt? w.toInt = some v → parse text = .ok v) ∧
      (∀ w, Decimal.int64? text.toList = some w → ofInt? w.toInt = none → parse text = .error (.range w)) ∧
      (Decimal.int64? text.toList = none → parse text = .error (.invalid text)) := by
  rw [parse, if_neg h.1, if_neg h.2.1, if_neg h.2.2]
  refine ⟨fun w hw v hv => ?_, fun w hw hnone => ?_, fun hnone => ?_⟩
  · simp only [hw, hv]
  · simp only [hw, hnone]
  · simp only [hnone]

theorem parse_of_inRange (h : Decimal.Numeral text.toList n) (hn : InRange n) : parse text = .ok (.ofInt n) := by
  have hword : (Int64.ofInt n).toInt = n := toInt_ofInt_of_ofInt? (ofInt?_of_inRange hn)
  have hread : Decimal.int64? text.toList = some (Int64.ofInt n) := int64?_eq_some.2 (hword.symm ▸ h)
  exact (parse_of_ne_name (numeral_ne_name h)).1 _ hread _ (hword.symm ▸ ofInt?_of_inRange hn)

theorem parse_of_not_inRange {w : Int64} (h : Decimal.Numeral text.toList w.toInt) (hw : ¬InRange w.toInt) :
    parse text = .error (.range w) := by
  have hnone : ofInt? w.toInt = none := Option.not_isSome_iff_eq_none.1 (mt isSome_ofInt?.1 hw)
  exact (parse_of_ne_name (numeral_ne_name h)).2.1 w (int64?_eq_some.2 h) hnone

theorem parse_of_not_numeral (hname : text ≠ "nil" ∧ text ≠ "true" ∧ text ≠ "false")
    (h : ∀ w : Int64, ¬Decimal.Numeral text.toList w.toInt) : parse text = .error (.invalid text) := by
  refine (parse_of_ne_name hname).2.2 ?_
  rw [Option.eq_none_iff_forall_not_mem]
  exact fun w hw => h w (int64?_eq_some.1 hw)

theorem literal_of_inRange (h : Decimal.Numeral text.toList n) (hn : InRange n) : Literal text (.ofInt n) :=
  .integer h hn.1 (Int.le_sub_one_of_lt hn.2)

theorem Literal.parse_eq {v : Value} (h : Literal text v) : parse text = .ok v := by
  cases h with
  | nil | true | false => rfl
  | integer numeral low high => exact parse_of_inRange numeral ⟨low, Int.lt_of_le_sub_one high⟩

/-- What a text can be. -/
theorem literal_cases (text : String) :
    (∃ v, Literal text v) ∨ (∃ w : Int64, Decimal.Numeral text.toList w.toInt ∧ ¬InRange w.toInt) ∨
      ((text ≠ "nil" ∧ text ≠ "true" ∧ text ≠ "false") ∧ ∀ w : Int64, ¬Decimal.Numeral text.toList w.toInt) := by
  by_cases hnumeral : ∃ w : Int64, Decimal.Numeral text.toList w.toInt
  · obtain ⟨w, hw⟩ := hnumeral
    by_cases hrange : InRange w.toInt
    · exact .inl ⟨_, literal_of_inRange hw hrange⟩
    · exact .inr (.inl ⟨w, hw, hrange⟩)
  · by_cases hname : text = "nil" ∨ text = "true" ∨ text = "false"
    · rcases hname with rfl | rfl | rfl
      · exact .inl ⟨_, .nil⟩
      · exact .inl ⟨_, .true⟩
      · exact .inl ⟨_, .false⟩
    · simp only [not_or] at hname
      exact .inr (.inr ⟨hname, fun w hw => hnumeral ⟨w, hw⟩⟩)

theorem parse_eq_ok {v : Value} : parse text = .ok v ↔ Literal text v := by
  refine ⟨fun h => ?_, Literal.parse_eq⟩
  rcases literal_cases text with ⟨v', hv'⟩ | ⟨w, hw, hrange⟩ | ⟨hname, hnot⟩
  · rw [hv'.parse_eq] at h
    cases h
    exact hv'
  · rw [parse_of_not_inRange hw hrange] at h
    cases h
  · rw [parse_of_not_numeral hname hnot] at h
    cases h

/-- The text of an object reference starts with a character that no literal has. -/
theorem parse_text_of_not_isLiteral {v : Value} (h : ¬v.IsLiteral) : parse v.text = .error (.invalid v.text) := by
  simp only [IsLiteral, not_or] at h
  obtain ⟨hfix, hnil, htrue, hfalse⟩ := h
  have htext : v.text = "#<" ++ Hex.ofWord v.raw ++ ">" := by
    rw [text, toInt?, if_neg hfix]
    simp only [if_neg hnil, if_neg htrue, if_neg hfalse]
  have hlist : v.text.toList = '#' :: '<' :: ((Hex.ofWord v.raw).toList ++ ['>']) := by
    rw [htext, String.toList_append, String.toList_append]
    rfl
  refine parse_of_not_numeral ?_ fun w hw => ?_
  · refine ⟨?_, ?_, ?_⟩ <;> intro heq <;> rw [heq] at hlist <;> cases hlist
  · rw [hlist] at hw
    generalize w.toInt = n at hw
    cases hw with
    | unsigned digits => exact Decimal.not_digits_sign rfl digits

/-- An integer of 64 bits without a fixnum is named in the message. -/
private theorem message_of_not_inRange (h : Decimal.Numeral text.toList n) (hlow : -2 ^ 63 ≤ n) (hhigh : n < 2 ^ 63)
    (hn : ¬InRange n) :
    (parse text).mapError LiteralError.message =
      .error ("integer " ++ Decimal.ofInt n ++ " does not fit in a fixnum") := by
  obtain ⟨w, rfl⟩ : ∃ w : Int64, w.toInt = n := ⟨.ofInt n, Int64.toInt_ofInt_of_le (by omega) (by omega)⟩
  rw [parse_of_not_inRange h hn]
  rfl

/-- A text without a value, or a numeral of more than 64 bits, is quoted in the message. -/
private theorem message_of_not_literal (hliteral : ∀ v, ¬Literal text v)
    (hnumeral : ∀ n, Decimal.Numeral text.toList n → n < -2 ^ 63 ∨ 2 ^ 63 ≤ n) :
    (parse text).mapError LiteralError.message = .error ("invalid literal `" ++ text ++ "`") := by
  rcases literal_cases text with ⟨v, hv⟩ | ⟨w, hw, _⟩ | ⟨hname, hnot⟩
  · exact absurd hv (hliteral v)
  · have hlow := w.minValue_le_toInt
    have hhigh := w.toInt_lt
    have hout := hnumeral _ hw
    simp only [Int64.toInt_minValue] at hlow
    omega
  · rw [parse_of_not_numeral hname hnot]
    rfl

/-- A text is read as a value exactly if it is a literal of it.  A numeral of 64 bits that is too large for a fixnum is
refused for that, and every other text for being no literal.  What is printed for a value is read as that value, or not
at all if the value is an object reference. -/
theorem parse_grammar :
    (∀ text v, parse text = .ok v ↔ Literal text v) ∧
    (∀ text n, Decimal.Numeral text.toList n → -2 ^ 63 ≤ n → n < 2 ^ 63 → ¬InRange n →
      (parse text).mapError LiteralError.message =
        .error ("integer " ++ Decimal.ofInt n ++ " does not fit in a fixnum")) ∧
    (∀ text, (∀ v, ¬Literal text v) → (∀ n, Decimal.Numeral text.toList n → n < -2 ^ 63 ∨ 2 ^ 63 ≤ n) →
      (parse text).mapError LiteralError.message = .error ("invalid literal `" ++ text ++ "`")) ∧
    (∀ v : Value, v.isFixnum = true ∨ v = .nil ∨ v = .true ∨ v = .false → parse v.text = .ok v) ∧
    (∀ v : Value, ¬(v.isFixnum = true ∨ v = .nil ∨ v = .true ∨ v = .false) → ∃ e, parse v.text = .error e) :=
  ⟨fun _ _ => parse_eq_ok, fun _ _ => message_of_not_inRange, fun _ => message_of_not_literal, fun _ => parse_text,
    fun _ h => ⟨_, parse_text_of_not_isLiteral h⟩⟩

/-- The smallest fixnum with leading zeros, the first integer above the range, and the first beyond 64 bits. -/
theorem parse_grammar_extremes :
    parse "-004611686018427387904" = .ok (.ofInt minFixnum) ∧
      (parse "+4611686018427387904").mapError LiteralError.message =
        .error "integer 4611686018427387904 does not fit in a fixnum" ∧
      (parse "9223372036854775808").mapError LiteralError.message = .error "invalid literal `9223372036854775808`" := by
  obtain ⟨hok, hrange, hinvalid, _⟩ := parse_grammar
  have hmin : Decimal.Numeral "-004611686018427387904".toList minFixnum := Decimal.int?_eq_some.1 rfl
  have hlarge : Decimal.Numeral "+4611686018427387904".toList 4611686018427387904 := Decimal.int?_eq_some.1 rfl
  have hhuge : Decimal.Numeral "9223372036854775808".toList 9223372036854775808 := Decimal.int?_eq_some.1 rfl
  refine ⟨(hok _ _).2 (literal_of_inRange hmin (inRange_iff.2 (by decide))), ?_, ?_⟩
  · exact hrange _ _ hlarge (by decide) (by decide) fun h => absurd h.2 (by decide)
  · refine hinvalid _ (fun v hv => ?_) fun n hn => .inr ?_
    · obtain ⟨hnil, htrue, hfalse⟩ := numeral_ne_name hhuge
      generalize "9223372036854775808" = text at hv hhuge hnil htrue hfalse
      cases hv with
      | nil => exact hnil rfl
      | true => exact htrue rfl
      | false => exact hfalse rfl
      | integer numeral low high =>
        cases numeral.unique hhuge
        exact absurd high (by decide)
    · cases hn.unique hhuge
      decide

end Value

end StackMachine
