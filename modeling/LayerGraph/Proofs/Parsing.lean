import LayerGraph.Json.Reader
import LayerGraph.Proofs.Scanning

/-!
# Reading what was written

The lexemes of a value scan to the tokens of the value, whatever the level at which it is
indented, and the tokens of a value assemble to the value. So a value whose numbers are
canonical reads back from its text.
-/

set_option autoImplicit false

namespace LayerGraph

namespace Json

variable {P : Json → Prop} {stack : List Json.Frame} {rest : List Token}

/-- Induction over values, the parts of an array or object at once. -/
theorem inductParts (null : P .null) (bool : ∀ b, P (.bool b)) (number : ∀ n, P (.number n))
    (string : ∀ s, P (.string s)) (array : ∀ items, (∀ item ∈ items, P item) → P (.array items))
    (object : ∀ fields, (∀ field ∈ fields, P field.2) → P (.object fields)) (j : Json) : P j :=
  match j with
  | .null => null
  | .bool b => bool b
  | .number n => number n
  | .string s => string s
  | .array items => array items fun item _ =>
    inductParts null bool number string array object item
  | .object fields => object fields fun field _ =>
    inductParts null bool number string array object field.2
termination_by sizeOf j
decreasing_by
  · have := List.sizeOf_lt_of_mem ‹_›
    simp only [Json.array.sizeOf_spec]
    omega
  · have := List.sizeOf_lt_of_mem ‹field ∈ fields›
    obtain ⟨key, value⟩ := field
    simp only [Json.object.sizeOf_spec, Prod.mk.sizeOf_spec] at *
    omega

section Assembling

open Assembly

theorem run_cons (a : Assembly) (t : Token) :
    a.run (t :: rest) = (a.feed t).bind fun next => next.run rest := rfl

/-- Where an array may also close, a value begins as anywhere. -/
theorem run_valueOrClose (j : Json) (items : List Json) :
    run ⟨.array items :: stack, .valueOrClose⟩ (j.tokens ++ rest) =
      run ⟨.array items :: stack, .value⟩ (j.tokens ++ rest) := by
  match j with
  | .null | .bool _ | .number _ | .string _ | .array [] | .array (_ :: _) | .object []
  | .object (_ :: _) => simp only [tokens, List.cons_append]; rfl

/-- The tokens of a value come to the value, wherever it stands. -/
def Assembles (j : Json) : Prop := ∀ stack rest,
  run ⟨stack, .value⟩ (j.tokens ++ rest) = (complete j stack).run rest

theorem run_itemTokens {items : List Json} (h : ∀ item ∈ items, Assembles item)
    (done : List Json) : run ⟨.array done :: stack, .separator⟩ (itemTokens items ++ rest) =
      (complete (.array (done.reverse ++ items)) stack).run rest := by
  induction items generalizing done with
  | nil =>
    rw [List.append_nil]
    rfl
  | cons item items ih =>
    have hcomma : feed ⟨.array done :: stack, .separator⟩ .comma =
        some ⟨.array done :: stack, .value⟩ := rfl
    rw [itemTokens, List.cons_append, run_cons, hcomma, Option.bind_some, List.append_assoc,
      h item List.mem_cons_self, complete, ih fun item' h' => h item' (List.mem_cons_of_mem _ h'),
      List.reverse_cons, List.append_assoc]
    rfl

theorem run_fieldTokens {fields : List (Option String × Json)}
    (h : ∀ field ∈ fields, Assembles field.2) (done : List (Option String × Json))
    (key : Option String) :
    run ⟨.object done key :: stack, .separator⟩ (fieldTokens fields ++ rest) =
      (complete (.object (done.reverse ++ fields)) stack).run rest := by
  induction fields generalizing done key with
  | nil =>
    rw [List.append_nil]
    rfl
  | cons field fields ih =>
    obtain ⟨name, value⟩ := field
    have hkey : run ⟨.object done key :: stack, .separator⟩
        (fieldTokens ((name, value) :: fields) ++ rest) =
          run ⟨.object done name :: stack, .value⟩
            (value.tokens ++ (fieldTokens fields ++ rest)) := by
      rw [← List.append_assoc]
      rfl
    rw [hkey, h _ List.mem_cons_self, complete,
      ih fun field' h' => h field' (List.mem_cons_of_mem _ h'), List.reverse_cons,
      List.append_assoc]
    rfl

theorem assembles (j : Json) : Assembles j := by
  induction j using inductParts with
  | null | bool | number | string => exact fun _ _ => rfl
  | array items ih =>
    intro stack rest
    cases items with
    | nil => rfl
    | cons item items =>
      have hopen : run ⟨stack, .value⟩ (tokens (.array (item :: items)) ++ rest) =
          run ⟨.array [] :: stack, .valueOrClose⟩ (item.tokens ++ (itemTokens items ++ rest)) := by
        rw [← List.append_assoc, tokens]
        rfl
      rw [hopen, run_valueOrClose, ih item List.mem_cons_self, complete,
        run_itemTokens fun item' h' => ih item' (List.mem_cons_of_mem _ h')]
      rfl
  | object fields ih =>
    intro stack rest
    cases fields with
    | nil => rfl
    | cons field fields =>
      obtain ⟨name, value⟩ := field
      have hopen : run ⟨stack, .value⟩ (tokens (.object ((name, value) :: fields)) ++ rest) =
          run ⟨.object [] name :: stack, .value⟩
            (value.tokens ++ (fieldTokens fields ++ rest)) := by
        rw [← List.append_assoc, tokens]
        rfl
      rw [hopen, ih _ List.mem_cons_self, complete,
        run_fieldTokens fun field' h' => ih field' (List.mem_cons_of_mem _ h')]
      rfl

theorem ofTokens?_tokens (j : Json) : ofTokens? j.tokens = some j := by
  have h := assembles j [] []
  rw [List.append_nil] at h
  rw [ofTokens?, start, h]
  rfl

end Assembling

end Json

namespace Lexeme

open Token

variable {first second : List Lexeme} {before after : List Token}

/-- A text before which a word or a number ends, whatever comes after it in turn. -/
def Delimits (lexemes : List Lexeme) : Prop :=
  ∀ rest, Ends rest → Ends (lexemes.flatMap chars ++ rest)

def Scans (lexemes : List Lexeme) (tokens : List Token) : Prop := ∀ emitted rest, Ends rest →
  scanFrom emitted (lexemes.flatMap chars ++ rest) = scanFrom (tokens.reverse ++ emitted) rest

theorem delimits_cons {c : Char} {cs : List Char} {l : Lexeme} (hl : l.chars = c :: cs)
    (hc : isNumberChar c = false ∧ c.isAlpha = false) : Delimits (l :: first) := by
  intro rest _ c' hc'
  rw [List.flatMap_cons, hl] at hc'
  obtain rfl : c = c' := by simpa using hc'
  exact hc

theorem delimits_newline (level : Nat) : Delimits (newline level :: first) :=
  delimits_cons rfl (by decide)

namespace Scans

theorem append (hfirst : Scans first before) (hsecond : Scans second after)
    (hd : Delimits second) : Scans (first ++ second) (before ++ after) := by
  intro emitted rest hrest
  rw [List.flatMap_append, List.append_assoc, hfirst _ _ (hd rest hrest), hsecond _ _ hrest,
    List.reverse_append, List.append_assoc]

theorem token {t : Token} (ht : ∀ n, t = .number n → n.Canonical) : Scans [.token t] [t] := by
  intro emitted rest hrest
  rw [List.flatMap_singleton]
  exact scanFrom_chars ht hrest

theorem cons {t : Token} (ht : ∀ n, t = .number n → n.Canonical) (h : Scans first before)
    (hd : Delimits first) : Scans (.token t :: first) (t :: before) :=
  (token ht).append h hd

theorem blank {cs : List Char} (hcs : ∀ c ∈ cs, isBlank c = true) (h : Scans first before) :
    Scans (.blank cs :: first) before := by
  intro emitted rest hrest
  rw [List.flatMap_cons, List.append_assoc, chars, scanFrom_blank hcs]
  exact h emitted rest hrest

theorem newline {level : Nat} (h : Scans first before) :
    Scans (newline level :: first) before := by
  refine blank (fun c hc => ?_) h
  rcases List.mem_cons.1 hc with rfl | hc
  · rfl
  · rw [List.eq_of_mem_replicate hc]
    rfl

end Scans

end Lexeme

namespace Json

open Lexeme

inductive Canonical : Json → Prop where
  | null : Canonical .null
  | bool (b : Bool) : Canonical (.bool b)
  | number {n : Numeral} (h : n.Canonical) : Canonical (.number n)
  | string (s : Option String) : Canonical (.string s)
  | array {items : List Json} (h : ∀ item ∈ items, Canonical item) : Canonical (.array items)
  | object {fields : List (Option String × Json)} (h : ∀ field ∈ fields, Canonical field.2) :
      Canonical (.object fields)

/-- Wherever the value is indented, its lexemes are scanned as its tokens. -/
def Written (j : Json) : Prop := ∀ level, Scans (j.indented level) j.tokens

theorem delimits_indentedItems (level : Nat) (items : List Json) :
    Delimits (indentedItems level items) := by
  cases items with
  | nil => exact delimits_newline level
  | cons => exact delimits_cons rfl (by decide)

theorem delimits_indentedFields (level : Nat) (fields : List (Option String × Json)) :
    Delimits (indentedFields level fields) := by
  cases fields with
  | nil => exact delimits_newline level
  | cons => exact delimits_cons rfl (by decide)

theorem scans_indentedItems {items : List Json} (h : ∀ item ∈ items, Written item) (level : Nat) :
    Scans (indentedItems level items) (itemTokens items) := by
  induction items with
  | nil => exact .newline (.token (by nofun))
  | cons item items ih =>
    have hrest := ih fun item' h' => h item' (List.mem_cons_of_mem _ h')
    exact .cons (by nofun)
      (.newline ((h item List.mem_cons_self _).append hrest (delimits_indentedItems _ _)))
      (delimits_newline _)

/-- A field after its key. -/
theorem scans_field {key : Option String} {value : Json} (hvalue : Written value) {level : Nat}
    {lexemes : List Lexeme} {ts : List Token} (hrest : Scans lexemes ts)
    (hd : Delimits lexemes) :
    Scans (.token (.string key) :: .token .colon :: .blank [' '] ::
        (value.indented level ++ lexemes))
      (.string key :: .colon :: (value.tokens ++ ts)) := by
  have hblank : Scans (.blank [' '] :: (value.indented level ++ lexemes)) (value.tokens ++ ts) :=
    .blank (List.all_eq_true.1 rfl) ((hvalue level).append hrest hd)
  exact .cons (by nofun) (.cons (by nofun) hblank (delimits_cons rfl (by decide)))
    (delimits_cons rfl (by decide))

theorem scans_indentedFields {fields : List (Option String × Json)}
    (h : ∀ field ∈ fields, Written field.2) (level : Nat) :
    Scans (indentedFields level fields) (fieldTokens fields) := by
  induction fields with
  | nil => exact .newline (.token (by nofun))
  | cons field fields ih =>
    have hrest := ih fun field' h' => h field' (List.mem_cons_of_mem _ h')
    exact .cons (by nofun)
      (.newline (scans_field (h field List.mem_cons_self) hrest (delimits_indentedFields _ _)))
      (delimits_newline _)

theorem Canonical.written {j : Json} (hj : j.Canonical) : Written j := by
  intro level
  induction hj generalizing level with
  | null | bool | string => exact .token (by nofun)
  | number h =>
    refine .token fun n heq => ?_
    cases heq
    exact h
  | @array items _ ih =>
    cases items with
    | nil => exact .cons (by nofun) (.token (by nofun)) (delimits_cons rfl (by decide))
    | cons item items =>
      have hrest := scans_indentedItems
        (fun item' h' => ih item' (List.mem_cons_of_mem _ h')) level
      exact .cons (by nofun)
        (.newline ((ih item List.mem_cons_self _).append hrest (delimits_indentedItems _ _)))
        (delimits_newline _)
  | @object fields _ ih =>
    cases fields with
    | nil => exact .cons (by nofun) (.token (by nofun)) (delimits_cons rfl (by decide))
    | cons field fields =>
      have hrest := scans_indentedFields
        (fun field' h' => ih field' (List.mem_cons_of_mem _ h')) level
      exact .cons (by nofun)
        (.newline (scans_field (ih field List.mem_cons_self) hrest (delimits_indentedFields _ _)))
        (delimits_newline _)

/-- A value with canonical numbers reads back from its indented text. -/
theorem parse?_pretty {j : Json} (hj : j.Canonical) : parse? j.pretty = some j := by
  have hscan := hj.written 0 [] [] (by simp [Token.Ends])
  rw [List.append_nil, List.append_nil] at hscan
  have htokens : Token.scanFrom j.tokens.reverse [] = some j.tokens := by
    simp [Token.scanFrom, Token.Machine.result, Token.Machine.run, Token.Machine.finish]
  rw [parse?, pretty, Lexeme.text, String.toList_ofList, Token.scan_eq, hscan, htokens,
    Option.bind_some, ofTokens?_tokens]

end Json

end LayerGraph
