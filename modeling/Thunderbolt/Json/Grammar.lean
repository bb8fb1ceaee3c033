import Mathlib.Data.Int.Notation
import Mathlib.Data.Nat.Init
import Thunderbolt.Json.Text

/-! What the parser reads back.

Each lemma has the form: the parser, in front of a piece of text and whatever may follow it,
takes that piece and leaves the rest. -/
namespace Thunderbolt.Json

variable {l rest token : List Byte} {c : Byte}

/-! ### Blanks -/

theorem skipWs_append (h : ∀ c ∈ l, isWs c = true) : skipWs (l ++ rest) = skipWs rest :=
  List.dropWhile_append_of_pos h

theorem skipWs_cons (h : isWs c = false) : skipWs (c :: rest) = c :: rest :=
  List.dropWhile_cons_of_neg (by simp [h])

theorem expect_append (hl : ∀ c ∈ l, isWs c = true) : expect c (l ++ rest) = expect c rest := by
  rw [expect, expect, skipWs_append hl]

theorem expect_self (h : isWs c = false) : expect c (c :: rest) = some rest := by
  rw [expect, skipWs_cons h]
  exact if_pos rfl

theorem expect_of_ne {d : Byte} (h : isWs d = false) (hne : d ≠ c) : expect c (d :: rest) = none := by
  rw [expect, skipWs_cons h]
  exact if_neg hne

/-! ### Strings -/

/-- Bytes that stand for themselves in a string. -/
theorem parseChar_plain (hquote : c ≠ backslash) (hcontrol : ¬c < 0x20) :
    parseChar (c :: rest) = some ([c], rest) := by
  rw [parseChar, if_neg hquote, if_neg hcontrol]

/-- A text that is read back as a string, character by character: each pair is what stands in the text and
what it stands for. -/
theorem parseString_chars (chars : List (List Byte × List Byte))
    (h : ∀ x ∈ chars, ∀ rest, parseChar (x.1 ++ rest) = some (x.2, rest) ∧
      ∃ c tail, x.1 = c :: tail ∧ c ≠ quote) {fuel : ℕ} (hfuel : chars.length < fuel) (rest : List Byte) :
    parseString fuel ((chars.map Prod.fst).flatten ++ quote :: rest) =
      some ((chars.map Prod.snd).flatten, rest) := by
  induction chars generalizing fuel with
  | nil =>
    obtain ⟨fuel, rfl⟩ : ∃ k, fuel = k + 1 := ⟨fuel - 1, by omega⟩
    simp [parseString]
  | cons x chars ih =>
    obtain ⟨fuel, rfl⟩ : ∃ k, fuel = k + 1 := ⟨fuel - 1, by omega⟩
    obtain ⟨hchar, c, tail, hx, hc⟩ := h x List.mem_cons_self ((chars.map Prod.fst).flatten ++ quote :: rest)
    have hrest := ih (fun y hy => h y (List.mem_cons_of_mem x hy))
      (by simpa using hfuel : chars.length < fuel)
    rw [hx, List.cons_append] at hchar
    simp only [List.map_cons, List.flatten_cons, List.append_assoc, hx, List.cons_append]
    simp only [parseString, if_neg hc, hchar, Option.bind_eq_bind, Option.bind_some, hrest]

/-! ### Numbers -/

def Digits (l : List Byte) : Prop := l ≠ [] ∧ ∀ c ∈ l, isDigit c = true

inductive Integer : List Byte → Prop where
  | zero : Integer [ascii '0']
  | digits {c : Byte} {l : List Byte} : isDigit c = true → c ≠ ascii '0' → (∀ d ∈ l, isDigit d = true) → Integer (c :: l)

inductive Fraction : List Byte → Prop where
  | none : Fraction []
  | digits {l : List Byte} : Digits l → Fraction (ascii '.' :: l)

inductive Exponent : List Byte → Prop where
  | none : Exponent []
  | digits {e : Byte} {sign l : List Byte} : e = ascii 'e' ∨ e = ascii 'E' → sign ∈ [[], [ascii '+'], [ascii '-']] →
      Digits l → Exponent (e :: (sign ++ l))

/-- The tokens of numbers. -/
inductive Number : List Byte → Prop where
  | mk {sign integer fraction exponent : List Byte} : sign ∈ [[], [ascii '-']] → Integer integer → Fraction fraction →
      Exponent exponent → Number (sign ++ (integer ++ (fraction ++ exponent)))

/-- No number goes on with what is left. -/
def Stops (l : List Byte) : Prop :=
  ∀ c ∈ l.head?, isDigit c = false ∧ c ≠ ascii '.' ∧ c ≠ ascii 'e' ∧ c ≠ ascii 'E'

theorem parseDigits_append (hl : Digits l) (hrest : ∀ c ∈ rest.head?, isDigit c = false) :
    parseDigits (l ++ rest) = some (l, rest) := by
  have htake : rest.takeWhile isDigit = [] ∧ rest.dropWhile isDigit = rest := by
    cases rest with
    | nil => exact ⟨rfl, rfl⟩
    | cons c rest => simp [hrest c rfl]
  rw [parseDigits, List.takeWhile_append_of_pos hl.2, List.dropWhile_append_of_pos hl.2, htake.1, htake.2,
    List.append_nil, if_neg hl.1]

theorem parseInteger_append (h : Integer l) (hrest : ∀ c ∈ rest.head?, isDigit c = false) :
    parseInteger (l ++ rest) = some (l, rest) := by
  cases h with
  | zero => simp [parseInteger]
  | @digits c l hc hne hl =>
    have hdigits : Digits (c :: l) := ⟨List.cons_ne_nil c l, by
      intro d hd
      obtain rfl | hd := List.mem_cons.mp hd
      · exact hc
      · exact hl d hd⟩
    rw [List.cons_append, parseInteger, if_neg hne]
    exact parseDigits_append hdigits hrest

theorem parseFraction_append (h : Fraction l) (hrest : ∀ c ∈ rest.head?, isDigit c = false ∧ c ≠ ascii '.') :
    parseFraction (l ++ rest) = some (l, rest) := by
  cases h with
  | none =>
    cases rest with
    | nil => rfl
    | cons c rest => exact if_neg (hrest c rfl).2
  | digits hl =>
    rw [List.cons_append, parseFraction, if_pos rfl, parseDigits_append hl fun c hc => (hrest c hc).1]
    rfl

theorem parseSign_append {signs sign : List Byte} (h : sign = [] ∨ ∃ c ∈ signs, sign = [c])
    (hrest : ∀ c ∈ rest.head?, c ∉ signs) : parseSign signs (sign ++ rest) = (sign, rest) := by
  obtain rfl | ⟨c, hc, rfl⟩ := h
  · cases rest with
    | nil => rfl
    | cons c rest => exact if_neg (hrest c rfl)
  · exact if_pos hc

theorem parseExponent_append (h : Exponent l) (hrest : Stops rest) :
    parseExponent (l ++ rest) = some (l, rest) := by
  cases h with
  | none =>
    cases rest with
    | nil => rfl
    | cons c rest => exact if_neg fun he => he.elim (hrest c rfl).2.2.1 (hrest c rfl).2.2.2
  | @digits e sign l he hsign hl =>
    have hsign' : sign = [] ∨ ∃ c ∈ [ascii '+', ascii '-'], sign = [c] := by
      simpa using hsign
    have hhead : ∀ c ∈ (l ++ rest).head?, c ∉ [ascii '+', ascii '-'] := by
      intro c hc hmem
      have hdigit : isDigit c = true := by
        obtain ⟨hne, hall⟩ := hl
        cases l with
        | nil => exact absurd rfl hne
        | cons d l => exact hall c (Option.some.inj hc ▸ List.mem_cons_self)
      simp only [List.mem_cons, List.not_mem_nil, or_false] at hmem
      obtain rfl | rfl := hmem <;> exact absurd hdigit (by decide)
    rw [List.cons_append, List.append_assoc, parseExponent, if_pos he,
      parseSign_append hsign' hhead]
    simp only [parseDigits_append hl fun c hc => (hrest c hc).1, Option.map_some]

/-- What comes behind the fraction does not go on with the integer. -/
theorem head_exponent (h : Exponent l) (hrest : Stops rest) :
    ∀ c ∈ (l ++ rest).head?, isDigit c = false ∧ c ≠ ascii '.' := by
  cases h with
  | none => exact fun c hc => ⟨(hrest c hc).1, (hrest c hc).2.1⟩
  | digits he =>
    intro c hc
    obtain rfl := Option.some.inj hc
    obtain rfl | rfl := he <;> decide

theorem head_fraction (h : Fraction l) (hrest : ∀ c ∈ rest.head?, isDigit c = false) :
    ∀ c ∈ (l ++ rest).head?, isDigit c = false := by
  cases h with
  | none => exact hrest
  | digits =>
    intro c hc
    obtain rfl := Option.some.inj hc
    decide

theorem head_integer (h : Integer l) : ∃ c tail, l = c :: tail ∧ isDigit c = true := by
  cases h with
  | zero => exact ⟨_, _, rfl, by decide⟩
  | digits hc => exact ⟨_, _, rfl, hc⟩

/-- **A number is read back**, from in front of anything that does not go on with it. -/
theorem parseNumber_append (h : Number token) (hrest : Stops rest) :
    parseNumber (token ++ rest) = some (token, rest) := by
  obtain ⟨hsign, hinteger, hfraction, hexponent⟩ := h
  rename_i sign integer fraction exponent
  have hsign' : sign = [] ∨ ∃ c ∈ [ascii '-'], sign = [c] := by simpa using hsign
  have hexp := head_exponent hexponent hrest
  have hhead : ∀ c ∈ (integer ++ (fraction ++ (exponent ++ rest))).head?, c ∉ [ascii '-'] := by
    obtain ⟨d, tail, rfl, hd⟩ := head_integer hinteger
    intro c hc hmem
    obtain rfl := Option.some.inj hc
    obtain rfl := List.mem_singleton.mp hmem
    exact absurd hd (by decide)
  simp only [List.append_assoc]
  simp only [parseNumber, parseSign_append hsign' hhead,
    parseInteger_append hinteger (head_fraction hfraction fun c hc => (hexp c hc).1),
    parseFraction_append hfraction hexp, parseExponent_append hexponent hrest, Option.bind_eq_bind,
    Option.bind_some]

/-- A number begins with a digit or a minus. -/
theorem head_number (h : Number token) : ∃ c tail, token = c :: tail ∧ (isDigit c = true ∨ c = ascii '-') := by
  obtain ⟨hsign, hinteger, _, _⟩ := h
  obtain ⟨c, tail, rfl, hc⟩ := head_integer hinteger
  simp only [List.mem_cons, List.not_mem_nil, or_false] at hsign
  obtain rfl | rfl := hsign
  · exact ⟨c, _, rfl, .inl hc⟩
  · exact ⟨_, _, rfl, .inr rfl⟩

/-- Such a byte begins nothing else. -/
theorem head_number_ne (h : isDigit c = true ∨ c = ascii '-') :
    isWs c = false ∧ c ≠ ascii '{' ∧ c ≠ ascii '[' ∧ c ≠ quote ∧ c ≠ ascii 't' ∧ c ≠ ascii 'f' ∧
      c ≠ ascii 'n' ∧ c ≠ ascii ']' := by
  revert c
  decide

theorem parseValue_number (h : Number token) (hrest : Stops rest) (fuel : ℕ) :
    parseValue (fuel + 1) (token ++ rest) = some (.number token, rest) := by
  have hparse := parseNumber_append h hrest
  obtain ⟨c, tail, rfl, hc⟩ := head_number h
  obtain ⟨hws, hbrace, hbracket, hquote, ht, hf, hn, _⟩ := head_number_ne hc
  have htrue : ¬bytes "true" <+: c :: (tail ++ rest) :=
    fun hprefix => ht (List.cons_prefix_cons.mp hprefix).1.symm
  have hfalse : ¬bytes "false" <+: c :: (tail ++ rest) :=
    fun hprefix => hf (List.cons_prefix_cons.mp hprefix).1.symm
  have hnull : ¬bytes "null" <+: c :: (tail ++ rest) :=
    fun hprefix => hn (List.cons_prefix_cons.mp hprefix).1.symm
  rw [List.cons_append] at hparse ⊢
  rw [parseValue, skipWs_cons hws]
  simp only [if_neg hbrace, if_neg hbracket, if_neg hquote]
  rw [parseScalar, if_neg htrue, if_neg hfalse, if_neg hnull, hparse]
  rfl

theorem parseValue_bool (b : Bool) (fuel : ℕ) (rest : List Byte) :
    parseValue (fuel + 1) ((if b then bytes "true" else bytes "false") ++ rest) = some (.bool b, rest) := by
  cases b <;> rfl

theorem parseValue_string {s : List Byte} (h : parseString (l.length + 1) l = some (s, rest)) (fuel : ℕ) :
    parseValue (fuel + 1) (quote :: l) = some (.string s, rest) := by
  rw [parseValue, skipWs_cons (by decide)]
  simp only [if_neg (by decide : quote ≠ ascii '{'), if_neg (by decide : quote ≠ ascii '['), if_true, h,
    Option.map_some]

theorem parseValue_object {fuel : ℕ} {members : List (List Byte × Tree)} (hne : expect (ascii '}') l = none)
    (h : parseMembers fuel l = some (members, rest)) :
    parseValue (fuel + 1) (ascii '{' :: l) = some (.object members, rest) := by
  rw [parseValue, skipWs_cons (by decide)]
  simp only [if_true, hne, h, Option.map_some]

theorem parseValue_array {fuel : ℕ} {elements : List Tree} (hne : expect (ascii ']') l = none)
    (h : parseElements fuel l = some (elements, rest)) :
    parseValue (fuel + 1) (ascii '[' :: l) = some (.array elements, rest) := by
  rw [parseValue, skipWs_cons (by decide)]
  simp only [if_neg (by decide : ascii '[' ≠ ascii '{'), if_true, hne, h, Option.map_some]

/-- Blanks before a value are skipped. -/
theorem parseValue_append (hl : ∀ c ∈ l, isWs c = true) (fuel : ℕ) (rest : List Byte) :
    parseValue fuel (l ++ rest) = parseValue fuel rest := by
  cases fuel with
  | zero => rw [parseValue, parseValue]
  | succ fuel => rw [parseValue, parseValue, skipWs_append hl]

/-- No number goes on with a comma or a blank. -/
theorem stops_cons (h : c = ascii ',' ∨ isWs c = true) : Stops (c :: rest) := by
  intro d hd
  obtain rfl := Option.some.inj hd
  clear hd
  revert c
  decide

/-! ### UTF-8 -/

/-- The bytes are some characters in UTF-8. -/
def Utf8 (l : List Byte) : Prop :=
  ∃ points : List ℕ, (∀ p ∈ points, p.isValidChar) ∧ l = points.flatMap utf8

theorem Utf8.append {l l' : List Byte} (h : Utf8 l) (h' : Utf8 l') : Utf8 (l ++ l') := by
  obtain ⟨points, hpoints, rfl⟩ := h
  obtain ⟨points', hpoints', rfl⟩ := h'
  refine ⟨points ++ points', fun p hp => ?_, List.flatMap_append.symm⟩
  exact (List.mem_append.mp hp).elim (hpoints p) (hpoints' p)

/-- ASCII is UTF-8. -/
theorem utf8_ascii (h : ∀ c ∈ l, c < 0x80) : Utf8 l := by
  induction l with
  | nil => exact ⟨[], fun p hp => absurd hp List.not_mem_nil, rfl⟩
  | cons c l ih =>
    obtain ⟨points, hpoints, rfl⟩ := ih fun d hd => h d (List.mem_cons_of_mem c hd)
    have hlt : c.toNat < 0x80 := h c List.mem_cons_self
    refine ⟨c.toNat :: points, fun p hp => ?_, ?_⟩
    · obtain rfl | hp := List.mem_cons.mp hp
      · exact .inl (by omega)
      · exact hpoints p hp
    · rw [List.flatMap_cons, utf8, if_pos hlt, BitVec.ofNat_toNat, BitVec.setWidth_eq]
      rfl

/-- A character that is ASCII is its own byte. -/
theorem utf8_of_lt {p : ℕ} (hp : p < 0x80) : utf8 p = [BitVec.ofNat 8 p] ∧ BitVec.ofNat 8 p < (0x80 : Byte) := by
  refine ⟨if_pos hp, ?_⟩
  rw [BitVec.lt_def, BitVec.toNat_ofNat, Nat.mod_eq_of_lt (by omega)]
  exact hp

/-- The bytes of a character that is not ASCII are not either. -/
theorem utf8_not_ascii {p : ℕ} (hp : p.isValidChar) (hge : 0x80 ≤ p) : ∀ c ∈ utf8 p, 0x80 ≤ c := by
  have hlt : p < 0x110000 := by
    obtain h | h := hp <;> omega
  have hbyte : ∀ n, 0x80 ≤ n → n < 0x100 → (0x80 : Byte) ≤ BitVec.ofNat 8 n := by
    intro n hn hn'
    rw [BitVec.le_def, BitVec.toNat_ofNat, Nat.mod_eq_of_lt hn']
    exact hn
  intro c hc
  unfold utf8 at hc
  rw [if_neg (by omega)] at hc
  split at hc
  · simp only [List.mem_cons, List.not_mem_nil, or_false] at hc
    obtain rfl | rfl := hc <;> exact hbyte _ (by omega) (by omega)
  split at hc
  · simp only [List.mem_cons, List.not_mem_nil, or_false] at hc
    obtain rfl | rfl | rfl := hc <;> exact hbyte _ (by omega) (by omega)
  · simp only [List.mem_cons, List.not_mem_nil, or_false] at hc
    obtain rfl | rfl | rfl | rfl := hc <;> exact hbyte _ (by omega) (by omega)

/-! ### Integers -/

/-- A natural number in decimal. -/
def decimal (n : ℕ) : List Byte := (Nat.toDigits 10 n).map ascii

/-- What the digits say. -/
def readNat (l : List Byte) : ℕ := l.foldl (fun value c => 10 * value + (c.toNat - 0x30)) 0

/-- The integer a token says, if it is one. -/
def readInteger : List Byte → Option ℤ
  | [] => none
  | c :: l =>
    if c = ascii '-' then if l.all isDigit then some (-readNat l) else none
    else if (c :: l).all isDigit then some (readNat (c :: l))
    else none

theorem isDigit_digitChar {d : ℕ} (h : d < 10) :
    isDigit (ascii d.digitChar) = true ∧ (ascii d.digitChar = ascii '0' ↔ d = 0) := by
  have hall : ∀ d < 10, isDigit (ascii (Nat.digitChar d)) = true ∧
      (ascii (Nat.digitChar d) = ascii '0' ↔ d = 0) := by decide
  exact hall d h

theorem decimal_succ {n : ℕ} (h : 10 ≤ n) :
    decimal n = decimal (n / 10) ++ [ascii (n % 10).digitChar] := by
  rw [decimal, Nat.toDigits_of_base_le (by decide) h, List.map_append]
  rfl

/-- The tokens of numbers are ASCII. -/
theorem utf8_number (h : Number token) : Utf8 token := by
  have hdigit : ∀ c, isDigit c = true → c < 0x80 := by decide
  have hdigits : ∀ l, Digits l → ∀ c ∈ l, c < 0x80 := fun l hl c hc => hdigit c (hl.2 c hc)
  obtain ⟨hsign, hinteger, hfraction, hexponent⟩ := h
  rename_i sign integer fraction exponent
  have h1 : Utf8 sign := by
    refine utf8_ascii fun c hc => ?_
    simp only [List.mem_cons, List.not_mem_nil, or_false] at hsign
    obtain rfl | rfl := hsign
    · exact absurd hc List.not_mem_nil
    · obtain rfl := List.mem_singleton.mp hc
      decide
  have h2 : Utf8 integer := by
    refine utf8_ascii ?_
    cases hinteger with
    | zero => decide
    | digits hc _ hl =>
      intro d hd
      obtain rfl | hd := List.mem_cons.mp hd
      · exact hdigit _ hc
      · exact hdigit d (hl d hd)
  have h3 : Utf8 fraction := by
    refine utf8_ascii ?_
    cases hfraction with
    | none => exact fun c hc => absurd hc List.not_mem_nil
    | digits hl =>
      intro d hd
      obtain rfl | hd := List.mem_cons.mp hd
      · decide
      · exact hdigits _ hl d hd
  have h4 : Utf8 exponent := by
    refine utf8_ascii ?_
    cases hexponent with
    | none => exact fun c hc => absurd hc List.not_mem_nil
    | digits he hsign hl =>
      intro d hd
      obtain rfl | hd := List.mem_cons.mp hd
      · obtain rfl | rfl := he <;> decide
      obtain hd | hd := List.mem_append.mp hd
      · simp only [List.mem_cons, List.not_mem_nil, or_false] at hsign
        obtain rfl | rfl | rfl := hsign
        · exact absurd hd List.not_mem_nil
        · obtain rfl := List.mem_singleton.mp hd
          decide
        · obtain rfl := List.mem_singleton.mp hd
          decide
      · exact hdigits _ hl d hd
  exact h1.append (h2.append (h3.append h4))

/-- No leading zero. -/
theorem decimal_pos {n : ℕ} (h : 0 < n) :
    ∃ c l, decimal n = c :: l ∧ isDigit c = true ∧ c ≠ ascii '0' ∧ ∀ d ∈ l, isDigit d = true := by
  induction n using Nat.strong_induction_on with
  | _ n ih =>
    by_cases hn : n < 10
    · obtain ⟨hdigit, hzero⟩ := isDigit_digitChar hn
      exact ⟨_, [], by rw [decimal, Nat.toDigits_of_lt_base hn, List.map_singleton], hdigit,
        fun h0 => h.ne' (hzero.mp h0), fun d hd => absurd hd List.not_mem_nil⟩
    · obtain ⟨c, l, hcl, hc, hne, hl⟩ := ih (n / 10) (by omega) (by omega)
      refine ⟨c, l ++ [ascii (n % 10).digitChar], ?_, hc, hne, fun d hd => ?_⟩
      · rw [decimal_succ (by omega), hcl, List.cons_append]
      · obtain hd | hd := List.mem_append.mp hd
        · exact hl d hd
        · obtain rfl := List.mem_singleton.mp hd
          exact (isDigit_digitChar (Nat.mod_lt n (by decide))).1

theorem integer_decimal (n : ℕ) : Integer (decimal n) := by
  by_cases h : n = 0
  · subst h
    exact .zero
  · obtain ⟨c, l, hcl, hc, hne, hl⟩ := decimal_pos (Nat.pos_of_ne_zero h)
    exact hcl ▸ .digits hc hne hl

theorem number_decimal (n : ℕ) : Number (decimal n) := by
  have h : Number ([] ++ (decimal n ++ ([] ++ []))) := .mk (by simp) (integer_decimal n) .none .none
  simpa using h

theorem number_neg_decimal (n : ℕ) : Number (ascii '-' :: decimal n) := by
  have h : Number ([ascii '-'] ++ (decimal n ++ ([] ++ []))) :=
    .mk (by simp) (integer_decimal n) .none .none
  simpa using h

theorem Integer.isDigit (h : Integer l) : ∀ c ∈ l, isDigit c = true := by
  cases h with
  | zero => decide
  | digits hc _ hl =>
    intro d hd
    obtain rfl | hd := List.mem_cons.mp hd
    · exact hc
    · exact hl d hd

theorem readNat_decimal (n : ℕ) : readNat (decimal n) = n := by
  induction n using Nat.strong_induction_on with
  | _ n ih =>
    have hdigit : ∀ d < 10, (ascii (Nat.digitChar d)).toNat - 0x30 = d := by decide
    by_cases hn : n < 10
    · rw [decimal, Nat.toDigits_of_lt_base hn]
      simpa [readNat] using hdigit n hn
    · rw [decimal_succ (by omega), readNat, List.foldl_append]
      have := ih (n / 10) (by omega)
      rw [readNat] at this
      rw [this, List.foldl_cons, List.foldl_nil, hdigit _ (Nat.mod_lt n (by decide))]
      omega

theorem readInteger_decimal (n : ℕ) : readInteger (decimal n) = some (n : ℤ) := by
  have hall : (decimal n).all isDigit = true := List.all_eq_true.mpr (integer_decimal n).isDigit
  have hread := readNat_decimal n
  obtain ⟨c, l, hcl, hc⟩ := head_integer (integer_decimal n)
  have hne : c ≠ ascii '-' := by
    intro heq
    obtain rfl := heq
    exact absurd hc (by decide)
  rw [hcl] at hall hread ⊢
  rw [readInteger, if_neg hne, if_pos hall, hread]

theorem readInteger_neg_decimal (n : ℕ) : readInteger (ascii '-' :: decimal n) = some (-n : ℤ) := by
  have hall : (decimal n).all isDigit = true := List.all_eq_true.mpr (integer_decimal n).isDigit
  rw [readInteger, if_pos rfl, if_pos hall, readNat_decimal]

end Thunderbolt.Json
