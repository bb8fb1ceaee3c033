import Mathlib.Data.List.Basic
import Thunderbolt.Bench.JsonWriter

/-! The writer writes the document it is told to write.

`Members.text` says what text the calls of a document append, as a function of the document,
the depth and whether a comma is due (`Members.run_calls`): the state of the stack is gone. The
parser reads it back, by induction on the document (`Members.parse_text`). -/
namespace Thunderbolt.Bench
open Json JsonWriter

variable {Double : Type} {print : Double → List Byte}

/-! ### Strings -/

theorem digits_eq : bytes "0123456789abcdef" = [0x30, 0x31, 0x32, 0x33, 0x34, 0x35, 0x36, 0x37, 0x38, 0x39,
    0x61, 0x62, 0x63, 0x64, 0x65, 0x66] :=
  rfl

theorem hexDigit_hexDigits {i : ℕ} (h : i < 16) : hexDigit (hexDigits i) = some i := by
  -- The string is unpacked once, not at each of its digits.
  rw [hexDigits, digits_eq]
  revert i
  decide

theorem nibbles (c : Byte) :
    ((c >>> 4) &&& 0xF).toNat = c.toNat / 16 ∧ (c &&& 0xF).toNat = c.toNat % 16 := by
  revert c
  decide

/-- The two digits of a control character. -/
theorem hexDigits_control {c : Byte} (h : c < 0x20) :
    hexDigit (hexDigits ((c >>> 4) &&& 0xF).toNat) = some (c.toNat / 16) ∧
      hexDigit (hexDigits (c &&& 0xF).toNat) = some (c.toNat % 16) ∧ utf8 c.toNat = [c] := by
  have hlt : c.toNat < 0x20 := h
  obtain ⟨hhigh, hlow⟩ := nibbles c
  rw [hhigh, hlow, hexDigit_hexDigits (by omega), hexDigit_hexDigits (by omega), (utf8_of_lt (by omega)).1,
    BitVec.ofNat_toNat, BitVec.setWidth_eq]
  exact ⟨rfl, rfl, rfl⟩

/-- **What is written for a byte is read back as that byte.** -/
theorem parseChar_escape (c : Byte) (rest : List Byte) : parseChar (escape c ++ rest) = some ([c], rest) := by
  unfold escape
  split
  · rename_i h
    exact h ▸ rfl
  split
  · rename_i h
    exact h ▸ rfl
  split
  · rename_i h
    exact h ▸ rfl
  split
  · rename_i h
    exact h ▸ rfl
  split
  · rename_i h
    exact h ▸ rfl
  split
  · rename_i h
    obtain ⟨hhigh, hlow, hutf8⟩ := hexDigits_control h
    have hzero : hexDigit (ascii '0') = some 0 := by decide
    have hlt : c.toNat < 0x20 := h
    have hunit : ((0 * 16 + 0) * 16 + c.toNat / 16) * 16 + c.toNat % 16 = c.toNat := by omega
    have hunicode : parseUnicode (ascii '0' :: ascii '0' :: hexDigits ((c >>> 4) &&& 0xF).toNat ::
        hexDigits (c &&& 0xF).toNat :: rest) = some ([c], rest) := by
      simp only [parseUnicode, parseHex, hzero, hhigh, hlow, Option.bind_eq_bind, Option.bind_some, hunit]
      rw [if_neg (by omega), if_neg (by omega), hutf8]
    exact hunicode
  · rename_i hbackslash _ _ _ hcontrol
    exact parseChar_plain hbackslash hcontrol

theorem escape_cons (c : Byte) : ∃ d tail, escape c = d :: tail ∧ d ≠ quote := by
  unfold escape
  split
  · exact ⟨_, _, rfl, by decide⟩
  split
  · exact ⟨_, _, rfl, by decide⟩
  split
  · exact ⟨_, _, rfl, by decide⟩
  split
  · exact ⟨_, _, rfl, by decide⟩
  split
  · exact ⟨_, _, rfl, by decide⟩
  split
  · exact ⟨_, _, rfl, by decide⟩
  · rename_i hquote _ _ _ _ _
    exact ⟨c, [], rfl, hquote⟩

theorem parseString_escape (s : List Byte) {fuel : ℕ} (hfuel : s.length < fuel) (rest : List Byte) :
    parseString fuel (s.flatMap escape ++ quote :: rest) = some (s, rest) := by
  have hchars : ∀ x ∈ s.map fun c => (escape c, [c]), ∀ rest,
      parseChar (x.1 ++ rest) = some (x.2, rest) ∧ ∃ d tail, x.1 = d :: tail ∧ d ≠ quote := by
    intro x hx rest
    obtain ⟨c, _, rfl⟩ := List.mem_map.mp hx
    exact ⟨parseChar_escape c rest, escape_cons c⟩
  have hread := parseString_chars _ hchars (by simpa using hfuel : _ < fuel) rest
  simpa [List.map_map, Function.comp_def, ← List.flatMap_def] using hread

theorem length_escape (s : List Byte) : s.length ≤ (s.flatMap escape).length := by
  induction s with
  | nil => exact le_rfl
  | cons c s ih =>
    obtain ⟨d, tail, hc, _⟩ := escape_cons c
    rw [List.flatMap_cons, List.length_append, hc]
    simp only [List.length_cons]
    omega

/-! ### The text of a document -/

/-- A line break and the indentation at this depth. -/
def newline (depth : ℕ) : List Byte := bytes "\n" ++ (List.replicate depth (bytes "  ")).flatten

/-- What stands before an entry. -/
def separator (depth : ℕ) (any : Bool) : List Byte := (if any then bytes "," else []) ++ newline depth

def quoted (s : List Byte) : List Byte := quote :: (s.flatMap escape ++ [quote])

/-- An entry's key, and what stands before it. -/
def keyed (depth : ℕ) (any : Bool) (key : List Byte) : List Byte :=
  separator depth any ++ (quoted key ++ bytes ": ")

/-- The end of a container at this depth. -/
def closing (depth : ℕ) (any : Bool) (bracket : List Byte) : List Byte :=
  (if any then newline depth else []) ++ bracket

def Members.any : Members Double → Bool
  | .nil => false
  | .cons .. => true

def Elements.any : Elements Double → Bool
  | .nil => false
  | _ => true

mutual

def Value.text (print : Double → List Byte) (depth : ℕ) : Value Double → List Byte
  | .object members =>
    [ascii '{'] ++ (members.text print (depth + 1) false ++ closing depth members.any [ascii '}'])
  | .array elements =>
    bytes "[" ++ (elements.text print (depth + 1) false ++ closing depth elements.any (bytes "]"))
  | .string s => quoted s
  | .bool b => if b then bytes "true" else bytes "false"
  | .unsigned n => decimal n.toNat
  | .signed n => JsonWriter.signed n.toInt
  | .double d => print d

def Members.text (print : Double → List Byte) (depth : ℕ) (any : Bool) : Members Double → List Byte
  | .nil => []
  | .cons key value members =>
    keyed depth any key ++ (value.text print depth ++ members.text print depth true)

def Elements.text (print : Double → List Byte) (depth : ℕ) (any : Bool) : Elements Double → List Byte
  | .nil => []
  | .object members elements =>
    separator depth any ++ ([ascii '{'] ++ (members.text print (depth + 1) false ++
      (closing depth members.any [ascii '}'] ++ elements.text print depth true)))
  | .unsigned n elements =>
    separator depth any ++ (decimal n.toNat ++ elements.text print depth true)
  | .double d elements => separator depth any ++ (print d ++ elements.text print depth true)

end

/-! ### The calls append it -/

theorem separate_eq (out : List Byte) (top : State) (below : List State) :
    separate ⟨out, top :: below⟩ =
      ⟨out ++ separator (below.length + 1) top.any_written, {top with any_written := true} :: below⟩ := by
  obtain ⟨any, array⟩ := top
  cases any <;> simp [separate, separator, newline_indent, emit, newline]

theorem write_key_eq (out : List Byte) (top : State) (below : List State) (key : List Byte) :
    write_key ⟨out, top :: below⟩ key =
      ⟨out ++ keyed (below.length + 1) top.any_written key, {top with any_written := true} :: below⟩ := by
  simp [write_key, separate_eq, write_string, emit, keyed, quoted]

theorem close_eq (out : List Byte) (top : State) (below : List State) (bracket : List Byte) :
    close ⟨out, top :: below⟩ bracket = ⟨out ++ closing below.length top.any_written bracket, below⟩ := by
  obtain ⟨any, array⟩ := top
  cases any <;> simp [close, closing, newline_indent, emit, newline]

theorem run_cons (w : JsonWriter) (c : Call Double) (calls : List (Call Double)) :
    run print w (c :: calls) = run print (call print w c) calls :=
  rfl

theorem run_append (w : JsonWriter) (calls calls' : List (Call Double)) :
    run print w (calls ++ calls') = run print (run print w calls) calls' :=
  List.foldl_append

mutual

theorem Value.run_calls (v : Value Double) (out : List Byte) (top : State) (below : List State)
    (key : List Byte) :
    run print ⟨out, top :: below⟩ (v.calls key) =
      ⟨out ++ (keyed (below.length + 1) top.any_written key ++ v.text print (below.length + 1)),
        {top with any_written := true} :: below⟩ := by
  cases v with
  | object members =>
    simp only [Value.calls, run_cons, run_append, call, begin_object_keyed, write_key_eq, emit]
    rw [members.run_calls]
    simp [run, end_object, close_eq, Value.text]
  | array elements =>
    simp only [Value.calls, run_cons, run_append, call, begin_array, write_key_eq, emit]
    rw [elements.run_calls]
    simp [run, end_array, close_eq, Value.text]
  | string s =>
    simp [Value.calls, run, call, field_string, write_key_eq, write_string, emit, Value.text, quoted]
  | bool b => simp [Value.calls, run, call, field_bool, write_key_eq, emit, Value.text]
  | unsigned n => simp [Value.calls, run, call, field_uint64, write_key_eq, emit, Value.text]
  | signed n => simp [Value.calls, run, call, field_int64, write_key_eq, emit, Value.text]
  | double d => simp [Value.calls, run, call, field_double, write_key_eq, emit, Value.text]

theorem Members.run_calls (m : Members Double) (out : List Byte) (top : State) (below : List State) :
    run print ⟨out, top :: below⟩ m.calls =
      ⟨out ++ m.text print (below.length + 1) top.any_written,
        {top with any_written := top.any_written || m.any} :: below⟩ := by
  cases m with
  | nil => simp [Members.calls, run, Members.text, Members.any]
  | cons key value members =>
    rw [Members.calls, run_append, value.run_calls, members.run_calls]
    simp [Members.text, Members.any]

theorem Elements.run_calls (e : Elements Double) (out : List Byte) (top : State) (below : List State) :
    run print ⟨out, top :: below⟩ e.calls =
      ⟨out ++ e.text print (below.length + 1) top.any_written,
        {top with any_written := top.any_written || e.any} :: below⟩ := by
  cases e with
  | nil => simp [Elements.calls, run, Elements.text, Elements.any]
  | object members elements =>
    simp only [Elements.calls, run_cons, run_append, call, begin_object, separate_eq, emit]
    rw [members.run_calls]
    simp only [end_object, close_eq]
    rw [elements.run_calls]
    simp [Elements.text, Elements.any]
  | unsigned n elements =>
    simp only [Elements.calls, run_cons, call, value_uint64, separate_eq, emit]
    rw [elements.run_calls]
    simp [Elements.text, Elements.any]
  | double d elements =>
    simp only [Elements.calls, run_cons, call, value_double, separate_eq, emit]
    rw [elements.run_calls]
    simp [Elements.text, Elements.any]

end

theorem write_eq (root : Members Double) :
    root.write print = [ascii '{'] ++ (root.text print 1 false ++ closing 0 root.any [ascii '}']) := by
  simp only [Members.write, run_cons, run_append, call, begin_object, separate, emit]
  rw [root.run_calls]
  simp [run, end_object, close_eq]

/-! ### It is read back -/

mutual

/-- The tree that the parser makes of a document. -/
def Value.tree (print : Double → List Byte) : Value Double → Tree
  | .object members => .object (members.trees print)
  | .array elements => .array (elements.trees print)
  | .string s => .string s
  | .bool b => .bool b
  | .unsigned n => .number (decimal n.toNat)
  | .signed n => .number (JsonWriter.signed n.toInt)
  | .double d => .number (print d)

def Members.trees (print : Double → List Byte) : Members Double → List (List Byte × Tree)
  | .nil => []
  | .cons key value members => (key, value.tree print) :: members.trees print

def Elements.trees (print : Double → List Byte) : Elements Double → List Tree
  | .nil => []
  | .object members elements => .object (members.trees print) :: elements.trees print
  | .unsigned n elements => .number (decimal n.toNat) :: elements.trees print
  | .double d elements => .number (print d) :: elements.trees print

end

theorem newline_isWs (depth : ℕ) : ∀ c ∈ newline depth, isWs c = true := by
  intro c hc
  rw [newline, List.mem_append, List.mem_flatten] at hc
  obtain hc | ⟨l, hl, hc⟩ := hc
  · exact (by decide : ∀ c ∈ bytes "\n", isWs c = true) c hc
  · rw [List.eq_of_mem_replicate hl] at hc
    exact (by decide : ∀ c ∈ bytes "  ", isWs c = true) c hc

theorem parseString_quoted (s rest : List Byte) :
    parseString ((s.flatMap escape ++ quote :: rest).length + 1) (s.flatMap escape ++ quote :: rest) =
      some (s, rest) := by
  refine parseString_escape s ?_ rest
  have := length_escape s
  simp only [List.length_append, List.length_cons]
  omega

theorem Members.text_true {m : Members Double} (h : m.any = true) (depth : ℕ) :
    m.text print depth true = ascii ',' :: m.text print depth false := by
  cases m with
  | nil => exact absurd h Bool.false_ne_true
  | cons key value members => rfl

theorem Elements.text_true {e : Elements Double} (h : e.any = true) (depth : ℕ) :
    e.text print depth true = ascii ',' :: e.text print depth false := by
  cases e with
  | nil => exact absurd h Bool.false_ne_true
  | object members elements => rfl
  | unsigned n elements => rfl
  | double d elements => rfl

theorem Members.eq_nil (m : Members Double) (h : m.any = false) : m = .nil := by
  cases m with
  | nil => rfl
  | cons key value members => exact absurd h.symm Bool.false_ne_true

theorem Elements.eq_nil (e : Elements Double) (h : e.any = false) : e = .nil := by
  cases e with
  | nil => rfl
  | object members elements => exact absurd h.symm Bool.false_ne_true
  | unsigned n elements => exact absurd h.symm Bool.false_ne_true
  | double d elements => exact absurd h.symm Bool.false_ne_true

theorem number_signed (n : ℤ) :
    Number (JsonWriter.signed n) ∧ readInteger (JsonWriter.signed n) = some n := by
  unfold JsonWriter.signed
  split
  · refine ⟨number_neg_decimal _, ?_⟩
    rw [readInteger_neg_decimal]
    congr 1
    omega
  · refine ⟨number_decimal _, ?_⟩
    rw [readInteger_decimal]
    congr 1
    omega

/-- What stands before the first entry is blank. -/
theorem expect_separator (c : Byte) (depth : ℕ) (l : List Byte) :
    expect c (separator depth false ++ l) = expect c l :=
  expect_append (newline_isWs depth)

theorem parseValue_separator (fuel depth : ℕ) (l : List Byte) :
    parseValue fuel (separator depth false ++ l) = parseValue fuel l :=
  parseValue_append (newline_isWs depth) fuel l

theorem expect_closing (c : Byte) (depth : ℕ) (any : Bool) (l l' : List Byte) :
    expect c (closing depth any l ++ l') = expect c (l ++ l') := by
  cases any with
  | false => rfl
  | true =>
    rw [closing, if_pos rfl, List.append_assoc]
    exact expect_append (newline_isWs depth)

/-- An object is read back when its members are. -/
theorem Members.parse_object (m : Members Double) (depth fuel : ℕ) (rest : List Byte)
    (hm : m.any = true →
      parseMembers fuel (m.text print (depth + 1) false ++ (closing depth true [ascii '}'] ++ rest)) =
        some (m.trees print, rest)) :
    parseValue (fuel + 1) ([ascii '{'] ++ (m.text print (depth + 1) false ++
      (closing depth m.any [ascii '}'] ++ rest))) = some (.object (m.trees print), rest) := by
  cases m with
  | nil => rfl
  | cons key value members =>
    have hnone : expect (ascii '}') ((Members.cons key value members).text print (depth + 1) false ++
        (closing depth true [ascii '}'] ++ rest)) = none := by
      rw [Members.text, keyed, List.append_assoc, List.append_assoc, expect_separator]
      exact expect_of_ne (by decide) (by decide)
    exact parseValue_object hnone (hm rfl)

/-- No element begins as an array ends. -/
theorem Elements.expect_text (hprint : ∀ d, Number (print d)) (e : Elements Double) (hany : e.any = true)
    (depth : ℕ) (l : List Byte) : expect (ascii ']') (e.text print depth false ++ l) = none := by
  have hnumber : ∀ token l, Number token → expect (ascii ']') (token ++ l) = none := by
    intro token l htoken
    obtain ⟨c, tail, rfl, hc⟩ := head_number htoken
    obtain ⟨hws, _, _, _, _, _, _, hne⟩ := head_number_ne hc
    exact expect_of_ne hws hne
  cases e with
  | nil => exact absurd hany Bool.false_ne_true
  | object members elements =>
    rw [Elements.text, List.append_assoc, List.append_assoc, expect_separator]
    exact expect_of_ne (by decide) (by decide)
  | unsigned n elements =>
    rw [Elements.text, List.append_assoc, List.append_assoc, expect_separator]
    exact hnumber _ _ (number_decimal n.toNat)
  | double d elements =>
    rw [Elements.text, List.append_assoc, List.append_assoc, expect_separator]
    exact hnumber _ _ (hprint d)

/-- An array is read back when its elements are. -/
theorem Elements.parse_array (hprint : ∀ d, Number (print d)) (e : Elements Double) (depth fuel : ℕ)
    (rest : List Byte) (he : e.any = true →
      parseElements fuel (e.text print (depth + 1) false ++ (closing depth true (bytes "]") ++ rest)) =
        some (e.trees print, rest)) :
    parseValue (fuel + 1) (bytes "[" ++ (e.text print (depth + 1) false ++
      (closing depth e.any (bytes "]") ++ rest))) = some (.array (e.trees print), rest) := by
  cases hany : e.any with
  | false =>
    obtain rfl := e.eq_nil hany
    rfl
  | true => exact parseValue_array (e.expect_text hprint hany _ _) (he hany)

/-- What comes behind a member does not go on with a number. -/
theorem Members.stops_text (m : Members Double) (print : Double → List Byte) (depth below : ℕ) (bracket rest : List Byte) :
    Stops (m.text print depth true ++ (closing below true bracket ++ rest)) := by
  cases m with
  | nil => exact stops_cons (.inr (by decide))
  | cons key value members => exact stops_cons (.inl rfl)

theorem Elements.stops_text (e : Elements Double) (print : Double → List Byte) (depth below : ℕ) (bracket rest : List Byte) :
    Stops (e.text print depth true ++ (closing below true bracket ++ rest)) := by
  cases e with
  | nil => exact stops_cons (.inr (by decide))
  | object members elements => exact stops_cons (.inl rfl)
  | unsigned n elements => exact stops_cons (.inl rfl)
  | double d elements => exact stops_cons (.inl rfl)

/-- A key and its value are read back, and the members behind them. -/
theorem Members.parse_cons {fuel : ℕ} {key value : List Byte} {tree : Tree} (m : Members Double)
    (depth below : ℕ) (rest : List Byte)
    (hvalue : ∀ tail, Stops tail → parseValue fuel (value ++ tail) = some (tree, tail))
    (hm : m.any = true →
      parseMembers fuel (m.text print depth false ++ (closing below true [ascii '}'] ++ rest)) =
        some (m.trees print, rest)) :
    parseMembers (fuel + 1) (keyed depth false key ++ (value ++ (m.text print depth true ++
      (closing below true [ascii '}'] ++ rest)))) = some ((key, tree) :: m.trees print, rest) := by
  have hstops := m.stops_text print depth below [ascii '}'] rest
  generalize htail : m.text print depth true ++ (closing below true [ascii '}'] ++ rest) = tail at hstops
  have hquote : expect quote (keyed depth false key ++ (value ++ tail)) =
      some (key.flatMap escape ++ quote :: (bytes ": " ++ (value ++ tail))) := by
    rw [keyed, List.append_assoc, expect_separator, quoted]
    simp only [List.append_assoc, List.cons_append, List.nil_append]
    exact expect_self (by decide)
  have hcolon : expect (ascii ':') (bytes ": " ++ (value ++ tail)) = some (bytes " " ++ (value ++ tail)) :=
    rfl
  have hblank : parseValue fuel (bytes " " ++ (value ++ tail)) = some (tree, tail) := by
    rw [parseValue_append (by decide), hvalue tail hstops]
  rw [parseMembers]
  simp only [hquote, parseString_quoted, hcolon, hblank, Option.bind_eq_bind, Option.bind_some]
  cases hany : m.any with
  | false =>
    obtain rfl := m.eq_nil hany
    rw [Members.text, List.nil_append] at htail
    have hcomma : expect (ascii ',') tail = none := by
      rw [← htail, expect_closing]
      rfl
    have hbrace : expect (ascii '}') tail = some rest := by
      rw [← htail, expect_closing]
      rfl
    simp only [hcomma, hbrace]
    rfl
  | true =>
    rw [m.text_true hany] at htail
    have hcomma : expect (ascii ',') tail =
        some (m.text print depth false ++ (closing below true [ascii '}'] ++ rest)) := by
      rw [← htail]
      exact expect_self (by decide)
    simp only [hcomma, hm hany, Option.map_some]

/-- An element is read back, and the elements behind it. -/
theorem Elements.parse_cons {fuel : ℕ} {value : List Byte} {tree : Tree} (e : Elements Double)
    (depth below : ℕ) (rest : List Byte)
    (hvalue : ∀ tail, Stops tail → parseValue fuel (value ++ tail) = some (tree, tail))
    (he : e.any = true →
      parseElements fuel (e.text print depth false ++ (closing below true (bytes "]") ++ rest)) =
        some (e.trees print, rest)) :
    parseElements (fuel + 1) (separator depth false ++ (value ++ (e.text print depth true ++
      (closing below true (bytes "]") ++ rest)))) = some (tree :: e.trees print, rest) := by
  have hstops := e.stops_text print depth below (bytes "]") rest
  generalize htail : e.text print depth true ++ (closing below true (bytes "]") ++ rest) = tail at hstops
  rw [parseElements]
  simp only [parseValue_separator, hvalue tail hstops, Option.bind_eq_bind, Option.bind_some]
  cases hany : e.any with
  | false =>
    obtain rfl := e.eq_nil hany
    rw [Elements.text, List.nil_append] at htail
    have hcomma : expect (ascii ',') tail = none := by
      rw [← htail, expect_closing]
      rfl
    have hbracket : expect (ascii ']') tail = some rest := by
      rw [← htail, expect_closing]
      rfl
    simp only [hcomma, hbracket]
    rfl
  | true =>
    rw [e.text_true hany] at htail
    have hcomma : expect (ascii ',') tail =
        some (e.text print depth false ++ (closing below true (bytes "]") ++ rest)) := by
      rw [← htail]
      exact expect_self (by decide)
    simp only [hcomma, he hany, Option.map_some]

theorem keyed_pos (depth : ℕ) (any : Bool) (key : List Byte) : 0 < (keyed depth any key).length := by
  rw [keyed, quoted, List.length_append, List.length_append, List.length_cons]
  omega

theorem separator_pos (depth : ℕ) : 0 < (separator depth false).length := by
  simp [separator, newline, bytes]

mutual

theorem Value.parse_text (hprint : ∀ d, Number (print d)) (v : Value Double) (depth fuel : ℕ)
    (hfuel : (v.text print depth).length < fuel) {rest : List Byte} (hrest : Stops rest) :
    parseValue fuel (v.text print depth ++ rest) = some (v.tree print, rest) := by
  obtain ⟨fuel, rfl⟩ : ∃ k, fuel = k + 1 := ⟨fuel - 1, by omega⟩
  cases v with
  | object members =>
    have hopen : [ascii '{'].length = 1 := rfl
    simp only [Value.text, List.length_append] at hfuel
    rw [Value.text, Value.tree, List.append_assoc, List.append_assoc]
    exact members.parse_object depth fuel rest fun hany =>
      members.parse_text hprint hany (depth + 1) depth fuel (by omega) rest
  | array elements =>
    have hopen : (bytes "[").length = 1 := rfl
    simp only [Value.text, List.length_append] at hfuel
    rw [Value.text, Value.tree, List.append_assoc, List.append_assoc]
    exact elements.parse_array hprint depth fuel rest fun hany =>
      elements.parse_text hprint hany (depth + 1) depth fuel (by omega) rest
  | string s =>
    rw [Value.text, Value.tree, quoted, List.cons_append, List.append_assoc]
    exact parseValue_string (parseString_quoted s rest) fuel
  | bool b =>
    rw [Value.text, Value.tree]
    exact parseValue_bool b fuel rest
  | unsigned n =>
    rw [Value.text, Value.tree]
    exact parseValue_number (number_decimal n.toNat) hrest fuel
  | signed n =>
    rw [Value.text, Value.tree]
    exact parseValue_number (number_signed n.toInt).1 hrest fuel
  | double d =>
    rw [Value.text, Value.tree]
    exact parseValue_number (hprint d) hrest fuel

theorem Members.parse_text (hprint : ∀ d, Number (print d)) (m : Members Double) (hany : m.any = true)
    (depth below fuel : ℕ) (hfuel : (m.text print depth false).length < fuel) (rest : List Byte) :
    parseMembers fuel (m.text print depth false ++ (closing below true [ascii '}'] ++ rest)) =
      some (m.trees print, rest) := by
  obtain ⟨fuel, rfl⟩ : ∃ k, fuel = k + 1 := ⟨fuel - 1, by omega⟩
  cases m with
  | nil => exact absurd hany Bool.false_ne_true
  | cons key value members =>
    have hkey := keyed_pos depth false key
    simp only [Members.text, List.length_append] at hfuel
    simp only [Members.text, Members.trees, List.append_assoc]
    refine members.parse_cons depth below rest (fun tail htail => value.parse_text hprint depth fuel (by omega) htail)
      fun hmore => members.parse_text hprint hmore depth below fuel ?_ rest
    rw [members.text_true hmore, List.length_cons] at hfuel
    omega

theorem Elements.parse_text (hprint : ∀ d, Number (print d)) (e : Elements Double) (hany : e.any = true)
    (depth below fuel : ℕ) (hfuel : (e.text print depth false).length < fuel) (rest : List Byte) :
    parseElements fuel (e.text print depth false ++ (closing below true (bytes "]") ++ rest)) =
      some (e.trees print, rest) := by
  obtain ⟨fuel, rfl⟩ : ∃ k, fuel = k + 1 := ⟨fuel - 1, by omega⟩
  have hseparator := separator_pos depth
  cases e with
  | nil => exact absurd hany Bool.false_ne_true
  | object members elements =>
    have hopen : [ascii '{'].length = 1 := rfl
    simp only [Elements.text, List.length_append] at hfuel
    simp only [Elements.text, Elements.trees, List.append_assoc]
    obtain ⟨fuel, rfl⟩ : ∃ k, fuel = k + 1 := ⟨fuel - 1, by omega⟩
    have hobject : ∀ tail, Stops tail → parseValue (fuel + 1) (([ascii '{'] ++
        (members.text print (depth + 1) false ++ closing depth members.any [ascii '}'])) ++ tail) =
          some (.object (members.trees print), tail) := by
      intro tail _
      rw [List.append_assoc, List.append_assoc]
      exact members.parse_object depth fuel tail fun hany =>
        members.parse_text hprint hany (depth + 1) depth fuel (by omega) tail
    have hparse := elements.parse_cons depth below rest hobject fun hmore =>
      elements.parse_text hprint hmore depth below (fuel + 1) (by
        rw [elements.text_true hmore] at hfuel
        simp only [List.length_cons] at hfuel
        omega) rest
    simpa only [List.append_assoc] using hparse
  | unsigned n elements =>
    simp only [Elements.text, List.length_append] at hfuel
    simp only [Elements.text, Elements.trees, List.append_assoc]
    obtain ⟨fuel, rfl⟩ : ∃ k, fuel = k + 1 := ⟨fuel - 1, by omega⟩
    refine elements.parse_cons depth below rest
      (fun tail htail => parseValue_number (number_decimal n.toNat) htail fuel)
      fun hmore => elements.parse_text hprint hmore depth below (fuel + 1) ?_ rest
    rw [elements.text_true hmore, List.length_cons] at hfuel
    omega
  | double d elements =>
    simp only [Elements.text, List.length_append] at hfuel
    simp only [Elements.text, Elements.trees, List.append_assoc]
    obtain ⟨fuel, rfl⟩ : ∃ k, fuel = k + 1 := ⟨fuel - 1, by omega⟩
    refine elements.parse_cons depth below rest
      (fun tail htail => parseValue_number (hprint d) htail fuel)
      fun hmore => elements.parse_text hprint hmore depth below (fuel + 1) ?_ rest
    rw [elements.text_true hmore, List.length_cons] at hfuel
    omega

end

mutual

theorem Value.same_tree (v : Value Double) : v.Same print (v.tree print) := by
  cases v with
  | object members =>
    rw [Value.tree, Value.Same]
    exact members.same_trees
  | array elements =>
    rw [Value.tree, Value.Same]
    exact elements.same_trees
  | string s => rw [Value.tree, Value.Same]
  | bool b => rw [Value.tree, Value.Same]
  | unsigned n => rw [Value.tree, Value.Same, readInteger_decimal]
  | signed n => rw [Value.tree, Value.Same, (number_signed n.toInt).2]
  | double d => rw [Value.tree, Value.Same]

theorem Members.same_trees (m : Members Double) : m.Same print (m.trees print) := by
  cases m with
  | nil =>
    rw [Members.trees, Members.Same]
    trivial
  | cons key value members =>
    rw [Members.trees, Members.Same]
    exact ⟨rfl, value.same_tree, members.same_trees⟩

theorem Elements.same_trees (e : Elements Double) : e.Same print (e.trees print) := by
  cases e with
  | nil =>
    rw [Elements.trees, Elements.Same]
    trivial
  | object members elements =>
    rw [Elements.trees, Elements.Same]
    exact ⟨members.same_trees, elements.same_trees⟩
  | unsigned n elements =>
    rw [Elements.trees, Elements.Same]
    exact ⟨readInteger_decimal n.toNat, elements.same_trees⟩
  | double d elements =>
    rw [Elements.trees, Elements.Same]
    exact ⟨rfl, elements.same_trees⟩

end

/-! ### It is UTF-8 -/

/-- What is not ASCII is written as it is. -/
theorem escape_not_ascii {c : Byte} (h : 0x80 ≤ c) : escape c = [c] := by
  have hne : ∀ c : Byte, 0x80 ≤ c → c ≠ ascii '"' ∧ c ≠ ascii '\\' ∧ c ≠ ascii '\n' ∧ c ≠ ascii '\r' ∧
      c ≠ ascii '\t' ∧ ¬c < 0x20 := by decide
  obtain ⟨h1, h2, h3, h4, h5, h6⟩ := hne c h
  rw [escape, if_neg h1, if_neg h2, if_neg h3, if_neg h4, if_neg h5, if_neg h6]

theorem hexDigits_ascii {i : ℕ} (h : i < 16) : hexDigits i < 0x80 := by
  rw [hexDigits, digits_eq]
  revert i
  decide

theorem escape_ascii {c : Byte} (h : c < 0x80) : ∀ d ∈ escape c, d < 0x80 := by
  unfold escape
  split
  · decide
  split
  · decide
  split
  · decide
  split
  · decide
  split
  · decide
  split
  · rename_i hcontrol
    have hlt : c.toNat < 0x20 := hcontrol
    obtain ⟨hhigh, hlow⟩ := nibbles c
    intro d hd
    obtain hd | hd := List.mem_append.mp hd
    · exact (by decide : ∀ d ∈ bytes "\\u00", d < 0x80) d hd
    · simp only [List.mem_cons, List.not_mem_nil, or_false] at hd
      obtain rfl | rfl := hd
      · exact hexDigits_ascii (by omega)
      · exact hexDigits_ascii (by omega)
  · intro d hd
    exact List.mem_singleton.mp hd ▸ h

theorem utf8_escape (p : ℕ) (hp : p.isValidChar) : Utf8 ((utf8 p).flatMap escape) := by
  by_cases hlt : p < 0x80
  · obtain ⟨heq, hbyte⟩ := utf8_of_lt hlt
    rw [heq, List.flatMap_singleton]
    exact utf8_ascii (escape_ascii hbyte)
  · have hsame : (utf8 p).flatMap escape = utf8 p := by
      have hall := utf8_not_ascii hp (Nat.le_of_not_lt hlt)
      generalize utf8 p = l at hall
      induction l with
      | nil => rfl
      | cons c l ih =>
        rw [List.flatMap_cons, escape_not_ascii (hall c List.mem_cons_self),
          ih fun d hd => hall d (List.mem_cons_of_mem c hd)]
        rfl
    rw [hsame]
    exact ⟨[p], fun q hq => List.mem_singleton.mp hq ▸ hp, (List.flatMap_singleton _ _).symm⟩

theorem utf8_quoted {s : List Byte} (h : Utf8 s) : Utf8 (quoted s) := by
  have hescape : Utf8 (s.flatMap escape) := by
    obtain ⟨points, hpoints, rfl⟩ := h
    induction points with
    | nil => exact utf8_ascii fun c hc => absurd hc List.not_mem_nil
    | cons p points ih =>
      rw [List.flatMap_cons, List.flatMap_append]
      exact .append (utf8_escape p (hpoints p List.mem_cons_self))
        (ih fun q hq => hpoints q (List.mem_cons_of_mem p hq))
  exact .append (utf8_ascii (by decide) : Utf8 [quote]) (hescape.append (utf8_ascii (by decide)))

theorem utf8_newline (depth : ℕ) : Utf8 (newline depth) := by
  refine utf8_ascii fun c hc => ?_
  have hws : ∀ c, isWs c = true → c < 0x80 := by decide
  exact hws c (newline_isWs depth c hc)

theorem utf8_separator (depth : ℕ) (any : Bool) : Utf8 (separator depth any) := by
  refine .append ?_ (utf8_newline depth)
  cases any <;> exact utf8_ascii (by decide)

theorem utf8_keyed {key : List Byte} (h : Utf8 key) (depth : ℕ) (any : Bool) : Utf8 (keyed depth any key) :=
  (utf8_separator depth any).append ((utf8_quoted h).append (utf8_ascii (by decide)))

theorem utf8_closing {bracket : List Byte} (h : Utf8 bracket) (depth : ℕ) (any : Bool) :
    Utf8 (closing depth any bracket) := by
  cases any with
  | false => exact h
  | true => exact (utf8_newline depth).append h

mutual

theorem Value.utf8_text (hprint : ∀ d, Number (print d)) (v : Value Double) (hv : v.Utf8) (depth : ℕ) :
    Json.Utf8 (v.text print depth) := by
  cases v with
  | object members =>
    rw [Value.Utf8] at hv
    rw [Value.text]
    exact .append (utf8_ascii (by decide)) ((members.utf8_text hprint hv (depth + 1) false).append
      (utf8_closing (utf8_ascii (by decide)) depth _))
  | array elements =>
    rw [Value.Utf8] at hv
    rw [Value.text]
    exact .append (utf8_ascii (by decide)) ((elements.utf8_text hprint hv (depth + 1) false).append
      (utf8_closing (utf8_ascii (by decide)) depth _))
  | string s =>
    rw [Value.Utf8] at hv
    rw [Value.text]
    exact utf8_quoted hv
  | bool b =>
    rw [Value.text]
    cases b <;> exact utf8_ascii (by decide)
  | unsigned n =>
    rw [Value.text]
    exact utf8_number (number_decimal n.toNat)
  | signed n =>
    rw [Value.text]
    exact utf8_number (number_signed n.toInt).1
  | double d =>
    rw [Value.text]
    exact utf8_number (hprint d)

theorem Members.utf8_text (hprint : ∀ d, Number (print d)) (m : Members Double) (hm : m.Utf8) (depth : ℕ)
    (any : Bool) : Json.Utf8 (m.text print depth any) := by
  cases m with
  | nil =>
    rw [Members.text]
    exact utf8_ascii fun c hc => absurd hc List.not_mem_nil
  | cons key value members =>
    rw [Members.Utf8] at hm
    obtain ⟨hkey, hvalue, hmembers⟩ := hm
    rw [Members.text]
    exact (utf8_keyed hkey depth any).append
      ((value.utf8_text hprint hvalue depth).append (members.utf8_text hprint hmembers depth true))

theorem Elements.utf8_text (hprint : ∀ d, Number (print d)) (e : Elements Double) (he : e.Utf8) (depth : ℕ)
    (any : Bool) : Json.Utf8 (e.text print depth any) := by
  cases e with
  | nil =>
    rw [Elements.text]
    exact utf8_ascii fun c hc => absurd hc List.not_mem_nil
  | object members elements =>
    rw [Elements.Utf8] at he
    rw [Elements.text]
    exact (utf8_separator depth any).append (.append (utf8_ascii (by decide))
      ((members.utf8_text hprint he.1 (depth + 1) false).append
        ((utf8_closing (utf8_ascii (by decide)) depth _).append (elements.utf8_text hprint he.2 depth true))))
  | unsigned n elements =>
    rw [Elements.Utf8] at he
    rw [Elements.text]
    exact (utf8_separator depth any).append
      ((utf8_number (number_decimal n.toNat)).append (elements.utf8_text hprint he depth true))
  | double d elements =>
    rw [Elements.Utf8] at he
    rw [Elements.text]
    exact (utf8_separator depth any).append
      ((utf8_number (hprint d)).append (elements.utf8_text hprint he depth true))

end

/-! ### The document -/

/-- **The writer writes the document it is told to write**: one JSON text, in UTF-8, that is read
back as the same tree. -/
theorem write_reads_back (hprint : ∀ d, Number (print d)) (root : Members Double) (hutf8 : root.Utf8) :
    Json.Utf8 (root.write print) ∧
      ∃ trees, parse (root.write print) = some (.object trees) ∧ root.Same print trees := by
  rw [write_eq]
  refine ⟨.append (utf8_ascii (by decide)) ((root.utf8_text hprint hutf8 1 false).append
    (utf8_closing (utf8_ascii (by decide)) 0 _)), root.trees print, ?_, root.same_trees⟩
  generalize hlength : ([ascii '{'] ++ (root.text print 1 false ++ closing 0 root.any [ascii '}'])).length = length
  have hread : parseValue (length + 1) ([ascii '{'] ++ (root.text print 1 false ++
      (closing 0 root.any [ascii '}'] ++ []))) = some (.object (root.trees print), []) := by
    refine root.parse_object 0 length [] fun hany => root.parse_text hprint hany 1 0 length ?_ []
    have hopen : [ascii '{'].length = 1 := rfl
    simp only [List.length_append] at hlength
    omega
  rw [List.append_nil] at hread
  rw [parse, hlength, hread]
  rfl

/-- A document with a string that has to be escaped, nested containers and a double, for doubles
that are small integers, which the stream prints in decimal. -/
theorem write_reads_back_nested :
    let print : Fin 1000 → List Byte := fun d => decimal d
    let root : Members (Fin 1000) := .cons (bytes "quote\"") (.string (bytes "line\n"))
      (.cons (bytes "cells") (.array (.object (.cons (bytes "mean") (.double 25) .nil) .nil)) .nil)
    Json.Utf8 (root.write print) ∧
      ∃ trees, parse (root.write print) = some (.object trees) ∧ root.Same print trees := by
  intro print root
  have hprint : ∀ d, Number (print d) := fun d => number_decimal d
  have hutf8 : root.Utf8 :=
    ⟨utf8_ascii (by decide), utf8_ascii (by decide), utf8_ascii (by decide),
      ⟨⟨utf8_ascii (by decide), trivial, trivial⟩, trivial⟩, trivial⟩
  exact write_reads_back hprint root hutf8

end Thunderbolt.Bench
