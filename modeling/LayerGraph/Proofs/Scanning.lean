import LayerGraph.Json.Token
import LayerGraph.Json.Writer
import LayerGraph.Proofs.Numerals

/-!
# Scanning what was written

The characters of a token lead the machine from between two tokens to between two tokens,
with the token emitted: every character of a string comes back through its escape, and a
word or a canonical number is known once the text goes on with neither a letter nor a
character of a number.
-/

set_option autoImplicit false

namespace LayerGraph

namespace Token

variable {emitted : List Token} {rest : List Char} {t : Token}

def Machine.result (m : Machine) (cs : List Char) : Option (List Token) :=
  (m.run cs).bind Machine.finish

theorem Machine.result_cons (m : Machine) (c : Char) (cs : List Char) :
    m.result (c :: cs) = (m.feed c).bind fun next => next.result cs := by
  rw [result, run, Option.bind_assoc]
  rfl

def scanFrom (emitted : List Token) (cs : List Char) : Option (List Token) :=
  Machine.result ⟨emitted, .between⟩ cs

theorem scan_eq (cs : List Char) : scan cs = scanFrom [] cs := rfl

/-- A text before which a word or a number ends. -/
def Ends (rest : List Char) : Prop :=
  ∀ c ∈ rest.head?, isNumberChar c = false ∧ c.isAlpha = false

theorem scanFrom_cons (c : Char) (cs : List Char) : scanFrom emitted (c :: cs) =
    (Machine.feedBetween emitted c).bind fun next => next.result cs :=
  Machine.result_cons _ _ _

theorem scanFrom_blank {blanks : List Char} (hb : ∀ c ∈ blanks, isBlank c = true) :
    scanFrom emitted (blanks ++ rest) = scanFrom emitted rest := by
  induction blanks with
  | nil => rfl
  | cons c blanks ih =>
    rw [List.cons_append, scanFrom_cons, Machine.feedBetween, if_pos (hb c List.mem_cons_self)]
    exact ih fun c' hc' => hb c' (List.mem_cons_of_mem _ hc')

section Collecting

variable (mode : List Char → Mode) (belongs : Char → Bool) {seen cs : List Char} {c : Char}

/-- A mode that collects characters collects all that belong to it. -/
theorem result_collect
    (hfeed : ∀ seen c, belongs c = true →
      Machine.feed ⟨emitted, mode seen⟩ c = some ⟨emitted, mode (c :: seen)⟩)
    (hc : ∀ c ∈ cs, belongs c = true) : Machine.result ⟨emitted, mode seen⟩ (cs ++ rest) =
      Machine.result ⟨emitted, mode (cs.reverse ++ seen)⟩ rest := by
  induction cs generalizing seen with
  | nil => rfl
  | cons c cs ih =>
    rw [List.cons_append, Machine.result_cons, hfeed _ _ (hc c List.mem_cons_self),
      Option.bind_some, ih fun c' hc' => hc c' (List.mem_cons_of_mem _ hc'), List.reverse_cons,
      List.append_assoc]
    rfl

/-- What was collected is a token once the text goes on with a character that does not belong
to it. -/
theorem result_collected
    (hfinish : Machine.finish ⟨emitted, mode seen⟩ = some (t :: emitted).reverse)
    (hend : ∀ c, belongs c = false →
      Machine.feed ⟨emitted, mode seen⟩ c = Machine.feedBetween (t :: emitted) c)
    (hrest : ∀ c ∈ rest.head?, belongs c = false) :
    Machine.result ⟨emitted, mode seen⟩ rest = scanFrom (t :: emitted) rest := by
  cases rest with
  | nil => exact hfinish
  | cons c rest => rw [Machine.result_cons, scanFrom_cons, hend c (hrest c rfl)]

end Collecting

theorem scanFrom_word {c : Char} {letters : List Char}
    (hstart : Machine.feedBetween emitted c = some ⟨emitted, .word [c]⟩)
    (hl : letters.all Char.isAlpha = true) (hw : ofWord? (c :: letters) = some t)
    (hrest : Ends rest) :
    scanFrom emitted (c :: letters ++ rest) = scanFrom (t :: emitted) rest := by
  have hseen : ofWord? (letters.reverse ++ [c]).reverse = some t := by simpa using hw
  rw [List.cons_append, scanFrom_cons, hstart, Option.bind_some,
    result_collect .word Char.isAlpha (fun _ _ h => by simp [Machine.feed, h])
      (List.all_eq_true.1 hl)]
  refine result_collected .word Char.isAlpha ?_ (fun c' h => ?_) fun c' h => (hrest c' h).2
  · simp only [Machine.finish, hseen, Option.map_some]
  · simp only [Machine.feed, h, Bool.false_eq_true, if_false, hseen, Option.bind_some]

section Numbers

variable {n : Numeral}

theorem isNumberChar_digit (d : Digit) : isNumberChar d.char = true := by
  revert d
  decide

theorem isNumberChar_exponentText {e : Option (ExponentSign × List Digit)} {c : Char}
    (hc : c ∈ Numeral.exponentText e) : isNumberChar c = true := by
  match e with
  | none => cases hc
  | some (.absent, digits) =>
    simp only [Numeral.exponentText, List.mem_cons, List.mem_map] at hc
    rcases hc with rfl | ⟨d, -, rfl⟩
    · rfl
    · exact isNumberChar_digit d
  | some (.plus, digits) | some (.minus, digits) =>
    simp only [Numeral.exponentText, List.mem_cons, List.mem_map] at hc
    rcases hc with rfl | rfl | ⟨d, -, rfl⟩
    · rfl
    · rfl
    · exact isNumberChar_digit d

theorem isNumberChar_of_mem {c : Char} (hc : c ∈ n.chars) : isNumberChar c = true := by
  simp only [Numeral.chars, List.mem_append, List.mem_map] at hc
  rcases hc with ((hc | ⟨d, -, rfl⟩) | hc) | hc
  · split at hc
    · obtain rfl := List.mem_singleton.1 hc
      rfl
    · cases hc
  · exact isNumberChar_digit d
  · split at hc
    · cases hc
    · rcases List.mem_cons.1 hc with rfl | hc
      · rfl
      · obtain ⟨d, -, rfl⟩ := List.mem_map.1 hc
        exact isNumberChar_digit d
  · exact isNumberChar_exponentText hc

/-- A number begins with a digit or the minus sign. -/
theorem exists_chars_eq (hn : n.Canonical) : ∃ c cs, n.chars = c :: cs ∧
    ∀ emitted, Machine.feedBetween emitted c = some ⟨emitted, .number [c]⟩ := by
  obtain ⟨d, digits, hd⟩ := List.exists_cons_of_ne_nil hn.whole.1
  cases hnegative : n.negative with
  | true => exact ⟨'-', _, by simp [Numeral.chars, hnegative]; rfl, fun _ => rfl⟩
  | false =>
    have hdigit : isBlank d.char = false ∧ d.char ≠ '"' ∧ d.char.isDigit = true := by
      clear hd
      revert d
      decide
    refine ⟨d.char, _, by simp [Numeral.chars, hnegative, hd]; rfl, fun emitted => ?_⟩
    simp [Machine.feedBetween, hdigit]

theorem scanFrom_number (hn : n.Canonical) (hrest : Ends rest) :
    scanFrom emitted (n.chars ++ rest) = scanFrom (.number n :: emitted) rest := by
  obtain ⟨c, cs, hchars, hstart⟩ := exists_chars_eq hn
  have hread := Numeral.ofChars?_chars hn
  have hmem : ∀ c' ∈ cs, isNumberChar c' = true :=
    fun c' hc' => isNumberChar_of_mem (n := n) (by simp [hchars, hc'])
  rw [hchars] at hread ⊢
  have hseen : Numeral.ofChars? (cs.reverse ++ [c]).reverse = some n := by simpa using hread
  rw [List.cons_append, scanFrom_cons, hstart, Option.bind_some,
    result_collect .number isNumberChar (fun _ _ h => by simp [Machine.feed, h]) hmem]
  refine result_collected .number isNumberChar ?_ (fun c' h => ?_) fun c' h => (hrest c' h).1
  · simp only [Machine.finish, hseen, Option.map_some]
  · simp only [Machine.feed, h, Bool.false_eq_true, if_false, hseen, Option.bind_some]

end Numbers

section Strings

variable {seen : List Char}

def inString (emitted : List Token) (seen : List Char) : Machine :=
  ⟨emitted, .quoted ⟨seen, true, none, .outside⟩⟩

theorem hexDigit?_hexChar {d : Nat} (hd : d < 16) : hexDigit? (hexChar d) = some d := by
  revert d
  decide

theorem result_escapeChar (c : Char) : (inString emitted seen).result (escapeChar c ++ rest) =
    (inString emitted (c :: seen)).result rest := by
  unfold escapeChar
  split
  · rfl
  · rfl
  · rfl
  · rfl
  · rfl
  · rfl
  · rfl
  · rename_i hquote hslash _ _ _ _ _
    split
    · rename_i hcontrol
      -- two hexadecimal digits after two zeros
      have hhigh : hexDigit? (hexChar (c.toNat / 16)) = some (c.toNat / 16) :=
        hexDigit?_hexChar (by omega)
      have hlow : hexDigit? (hexChar (c.toNat % 16)) = some (c.toNat % 16) :=
        hexDigit?_hexChar (by omega)
      have hzero : hexDigit? '0' = some 0 := rfl
      have hunit : 16 * (c.toNat / 16) + c.toNat % 16 = c.toNat := by omega
      have hhigh' : ¬ (0xD800 ≤ c.toNat ∧ c.toNat < 0xDC00) := by omega
      have hlow' : ¬ (0xDC00 ≤ c.toNat ∧ c.toNat < 0xE000) := by omega
      simp [inString, Machine.result_cons, Machine.feed, Quoted.feed, Quoted.pushUnit, Quoted.push,
        hzero, hhigh, hlow, hunit, hhigh', hlow']
    · rename_i hplain
      have hquote' : ¬ c = '"' := hquote
      have hslash' : ¬ c = '\\' := hslash
      simp [inString, Machine.result_cons, Machine.feed, Quoted.feed, Quoted.push, hquote',
        hslash', hplain]

theorem result_escaped (cs : List Char) :
    (inString emitted seen).result (cs.flatMap escapeChar ++ rest) =
      (inString emitted (cs.reverse ++ seen)).result rest := by
  induction cs generalizing seen with
  | nil => rfl
  | cons c cs ih =>
    rw [List.flatMap_cons, List.append_assoc, result_escapeChar, ih, List.reverse_cons,
      List.append_assoc]
    rfl

/-- Every string reads back, and so does one that could not be read. -/
theorem scanFrom_string (s : Option String) :
    scanFrom emitted (chars (.string s) ++ rest) = scanFrom (.string s :: emitted) rest := by
  cases s with
  | none => rfl
  | some s =>
    have hclose : (inString emitted s.toList.reverse).result ('"' :: rest) =
        scanFrom (.string (some s) :: emitted) rest := by
      rw [Machine.result_cons]
      simp [inString, Machine.feed, Quoted.token, scanFrom]
    calc scanFrom emitted (chars (.string (some s)) ++ rest)
        = (inString emitted []).result (s.toList.flatMap escapeChar ++ '"' :: rest) := by
          rw [chars, List.cons_append, List.append_assoc]
          rfl
      _ = _ := by rw [result_escaped, List.append_nil, hclose]

end Strings

/-- What is written for a token is scanned as that token. -/
theorem scanFrom_chars (ht : ∀ n, t = .number n → n.Canonical) (hrest : Ends rest) :
    scanFrom emitted (t.chars ++ rest) = scanFrom (t :: emitted) rest := by
  match t with
  | .openArray | .closeArray | .openObject | .closeObject | .colon | .comma => rfl
  | .null | .bool true | .bool false => exact scanFrom_word rfl rfl rfl hrest
  | .number n => exact scanFrom_number (ht n rfl) hrest
  | .string s => exact scanFrom_string s

end Token

end LayerGraph
