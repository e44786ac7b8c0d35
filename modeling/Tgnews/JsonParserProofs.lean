import Tgnews.JsonLexerProofs

/-! # Reading a JSON text: the parser (`parser.hpp`, `json_sax.hpp`)

    The parser is one loop with a stack of its own: a bit for every array or object it is
    in.  The value is built beside it by calls (`start_array`, `key`, ...), on a second
    stack of pointers into the value.  The route:

    * `Reads` — the grammar, by recursion over the value, with no stack;
    * `run_of_reads` — a value of the grammar takes the loop from its first token to the
      place behind it, whatever the stacks hold;
    * `hasRead_of_run` — a run that ends has read such a value, and `Closes` is what the
      stacks still ask of the text;
    * **`parse_iff`** — so the loop accepts exactly the grammar;
    * **`parse_defined`** — on no text does it trip one of its assertions. -/

namespace TgnewsJsonParser

open CxxText TgnewsIo TgnewsSerializer TgnewsJsonLexer

/-! ## Values under construction -/

/-- `basic_json`.  A number stands for what `operator==` compares, of whatever type. -/
inductive Value where
  | null
  | boolean (b : Bool)
  | number (q : ℚ)
  | string (s : Str)
  | array (elems : List Value)
  | object (fields : List (Str × Value))

/-- What a pointer in `ref_stack` points to, without the value that is being read into it.
    An object has a key when `object_element` points into it. -/
inductive Frame where
  | array (elems : List Value)
  | object (fields : List (Str × Value)) (objectElement : Option Str)

def Frame.value : Frame → Value
  | .array elems => .array elems
  | .object fields _ => .object fields

def Frame.isArray : Frame → Bool
  | .array _ => true
  | .object _ _ => false

/-- `json_sax_dom_parser`; the innermost value stands first. -/
structure Builder where
  root : Value
  refStack : List Frame

/-- `token_type`, where it is what the parser expected. -/
inductive Expected where
  | literalOrValue
  | valueString
  | nameSeparator
  | endArray
  | endObject
  | endOfInput

/-- What `parse` throws: a parse error by the token it stopped at, what was expected and
    what was being parsed, or a number that is not finite.  The last one is no exception
    but an assertion that fails. -/
inductive Fault where
  | parseError (lastToken : Token) (expected : Option Expected) (context : Str)
  | outOfRange
  | assertion

/-- `handle_value`. -/
def Builder.handleValue (v : Value) : Builder → Except Fault Builder
  | ⟨_, []⟩ => .ok ⟨v, []⟩
  | ⟨root, .array elems :: stack⟩ => .ok ⟨root, .array (elems ++ [v]) :: stack⟩
  | ⟨root, .object fields (some k) :: stack⟩ =>
      .ok ⟨root, .object (assignField k v fields) none :: stack⟩
  | ⟨_, .object _ none :: _⟩ => .error .assertion

/-- `start_array` and `start_object`: the empty value has to find its place. -/
def Builder.start (frame : Frame) (b : Builder) : Except Fault Builder :=
  match b.handleValue frame.value with
  | .ok _ => .ok { b with refStack := frame :: b.refStack }
  | .error e => .error e

/-- `end_array` and `end_object`. -/
def Builder.finish : Builder → Except Fault Builder
  | ⟨root, frame :: stack⟩ => Builder.handleValue frame.value ⟨root, stack⟩
  | ⟨_, []⟩ => .error .assertion

/-- `key`. -/
def Builder.key (k : Str) : Builder → Except Fault Builder
  | ⟨root, .object fields _ :: stack⟩ => .ok ⟨root, .object fields (some k) :: stack⟩
  | _ => .error .assertion

/-! ## The loop -/

/-- The variables of `sax_parse_internal` and what they work on: the last token and the
    text behind it, for every array or object (innermost first) whether it is an array,
    and the flag that stands for a jump. -/
structure Parser where
  lastToken : Token
  rest : Str
  states : List Bool
  skip : Bool
  builder : Builder

/-- How the body of the loop ends. -/
inductive Turn where
  | again (p : Parser)
  | done (p : Parser)

section Parse

variable (strtod : Str → Option ℚ)

/-- `get_token`. -/
def Parser.getToken (p : Parser) : Parser :=
  { p with lastToken := (scan strtod p.rest).1, rest := (scan strtod p.rest).2 }

/-- A `parse_error` at the last token; at one of the lexer nothing was expected. -/
def Parser.unexpected (p : Parser) (expected : Option Expected) (context : Str) : Fault :=
  .parseError p.lastToken expected context

/-- From the token that has to be a key to the first token of the value. -/
def Parser.readKey (p : Parser) : Except Fault Parser :=
  match p.lastToken with
  | .valueString k =>
      match p.builder.key k with
      | .error e => .error e
      | .ok b =>
          let p := Parser.getToken strtod { p with builder := b }
          if p.lastToken = .nameSeparator then .ok (p.getToken strtod)
          else .error (p.unexpected (some .nameSeparator) "object separator".toList)
  | _ => .error (p.unexpected (some .valueString) "object key".toList)

/-- The end of an array or object that is not empty. -/
def Parser.close (p : Parser) (states : List Bool) : Except Fault Turn :=
  match p.builder.finish with
  | .ok b => .ok (.again { p with builder := b, states, skip := true })
  | .error e => .error e

/-- The loop behind the `switch`: a value was read. -/
def Parser.evaluate (p : Parser) : Except Fault Turn :=
  match p.states with
  | [] => .ok (.done p)
  | true :: states =>
      let p := p.getToken strtod
      match p.lastToken with
      | .valueSeparator => .ok (.again (p.getToken strtod))
      | .endArray => p.close states
      | _ => .error (p.unexpected (some .endArray) "array".toList)
  | false :: states =>
      let p := p.getToken strtod
      match p.lastToken with
      | .valueSeparator =>
          match Parser.readKey strtod (p.getToken strtod) with
          | .ok p => .ok (.again p)
          | .error e => .error e
      | .endObject => p.close states
      | _ => .error (p.unexpected (some .endObject) "object".toList)

/-- A value that is complete, and the loop behind the `switch`. -/
def Parser.handle (p : Parser) (b : Except Fault Builder) : Except Fault Turn :=
  match b with
  | .ok b => Parser.evaluate strtod { p with builder := b }
  | .error e => .error e

/-- `case token_type::begin_object`. -/
def Parser.beginObject (p : Parser) : Except Fault Turn :=
  match p.builder.start (.object [] none) with
  | .error e => .error e
  | .ok b =>
      let p := Parser.getToken strtod { p with builder := b }
      if p.lastToken = .endObject then p.handle strtod p.builder.finish
      else
        match p.readKey strtod with
        | .ok p => .ok (.again { p with states := false :: p.states })
        | .error e => .error e

/-- `case token_type::begin_array`. -/
def Parser.beginArray (p : Parser) : Except Fault Turn :=
  match p.builder.start (.array []) with
  | .error e => .error e
  | .ok b =>
      let p := Parser.getToken strtod { p with builder := b }
      if p.lastToken = .endArray then p.handle strtod p.builder.finish
      else .ok (.again { p with states := true :: p.states })

/-- The value of a token that is one. -/
def scalar : Token → Option Value
  | .literalTrue => some (.boolean true)
  | .literalFalse => some (.boolean false)
  | .literalNull => some .null
  | .valueString s => some (.string s)
  | .valueUnsigned n => some (.number n)
  | .valueInteger n => some (.number n)
  | .valueFloat (some q) => some (.number q)
  | _ => none

/-- The `switch`. -/
def Parser.switch (p : Parser) : Except Fault Turn :=
  match p.lastToken with
  | .beginObject => p.beginObject strtod
  | .beginArray => p.beginArray strtod
  | .valueFloat none => .error .outOfRange
  | .parseError _ => .error (p.unexpected none "value".toList)
  | token =>
      match scalar token with
      | some v => p.handle strtod (p.builder.handleValue v)
      | none => .error (p.unexpected (some .literalOrValue) "value".toList)

/-- The body of the loop of `sax_parse_internal`. -/
def Parser.turn (p : Parser) : Except Fault Turn :=
  if p.skip then Parser.evaluate strtod { p with skip := false } else p.switch strtod

/-! ### What each part of the body does -/

/-- The last token and the text behind it, with the next token of `r` read. -/
def Parser.at (p : Parser) (r : Str) : Parser :=
  { p with lastToken := (scan strtod r).1, rest := (scan strtod r).2 }

/-- The token that closes an array or an object. -/
def closing (isArray : Bool) : Token := if isArray then .endArray else .endObject

/-- **What comes behind a value**: the end, one more element or member, or a bracket. -/
inductive Evaluates (p : Parser) : Turn → Prop where
  | done : p.states = [] → Evaluates p (.done p)
  | element {states : List Bool} {r : Str} : p.states = true :: states →
      scan strtod p.rest = (.valueSeparator, r) → Evaluates p (.again (p.at strtod r))
  | member {states : List Bool} {r r₁ r₂ k : Str} {b : Builder} : p.states = false :: states →
      scan strtod p.rest = (.valueSeparator, r) → scan strtod r = (.valueString k, r₁) →
      p.builder.key k = .ok b → scan strtod r₁ = (.nameSeparator, r₂) →
      Evaluates p (.again (Parser.at strtod { p with builder := b } r₂))
  | close {isArray : Bool} {states : List Bool} {r : Str} {b : Builder} :
      p.states = isArray :: states → scan strtod p.rest = (closing isArray, r) →
      p.builder.finish = .ok b → Evaluates p (.again ⟨closing isArray, r, states, true, b⟩)

/-- **What a value starts with**: it is one token, or it opens an array or object. -/
inductive Switches (p : Parser) : Turn → Prop where
  | scalar {v : Value} {b : Builder} {turn : Turn} : scalar p.lastToken = some v →
      p.builder.handleValue v = .ok b → Evaluates strtod { p with builder := b } turn →
      Switches p turn
  | emptyArray {r : Str} {b : Builder} {turn : Turn} : p.lastToken = .beginArray →
      scan strtod p.rest = (.endArray, r) → p.builder.handleValue (.array []) = .ok b →
      Evaluates strtod { p with lastToken := .endArray, rest := r, builder := b } turn →
      Switches p turn
  | emptyObject {r : Str} {b : Builder} {turn : Turn} : p.lastToken = .beginObject →
      scan strtod p.rest = (.endObject, r) → p.builder.handleValue (.object []) = .ok b →
      Evaluates strtod { p with lastToken := .endObject, rest := r, builder := b } turn →
      Switches p turn
  | array {b : Builder} : p.lastToken = .beginArray → (scan strtod p.rest).1 ≠ .endArray →
      p.builder.start (.array []) = .ok b →
      Switches p (.again (Parser.at strtod
        { p with states := true :: p.states, builder := b } p.rest))
  | object {b b' : Builder} {r₁ r₂ k : Str} : p.lastToken = .beginObject →
      scan strtod p.rest = (.valueString k, r₁) → p.builder.start (.object [] none) = .ok b →
      b.key k = .ok b' → scan strtod r₁ = (.nameSeparator, r₂) →
      Switches p (.again (Parser.at strtod
        { p with states := false :: p.states, builder := b' } r₂))

/-- A key is read: a string, then a colon. -/
theorem readKey_iff {p p' : Parser} : p.readKey strtod = .ok p' ↔
    ∃ k b r, p.lastToken = .valueString k ∧ p.builder.key k = .ok b ∧
      scan strtod p.rest = (.nameSeparator, r) ∧
        p' = Parser.at strtod { p with builder := b } r := by
  constructor
  · intro h
    rw [Parser.readKey] at h
    split at h
    · rename_i k hk
      split at h
      · cases h
      · rename_i b hb
        simp only at h
        split_ifs at h with hcolon
        cases h
        exact ⟨k, b, (scan strtod p.rest).2, hk, hb, Prod.ext hcolon rfl, rfl⟩
    · cases h
  · rintro ⟨k, b, r, hk, hb, hr, rfl⟩
    obtain ⟨token, rest, states, skip, builder⟩ := p
    simp only at hk hb hr
    subst hk
    rw [Parser.readKey]
    simp only [hb, Parser.getToken, hr]
    rfl

/-- An array or object is closed, and the loop goes around without reading a value. -/
theorem close_iff {p : Parser} {states : List Bool} {turn : Turn} :
    p.close states = .ok turn ↔
      ∃ b, p.builder.finish = .ok b ∧ turn = .again ⟨p.lastToken, p.rest, states, true, b⟩ := by
  rw [Parser.close]
  cases p.builder.finish with
  | error e => simp
  | ok b => simp [eq_comm]

/-- What happens after a value, by the top of the stack. -/
theorem evaluate_iff {p : Parser} {turn : Turn} :
    p.evaluate strtod = .ok turn ↔ Evaluates strtod p turn := by
  constructor
  · intro h
    rw [Parser.evaluate] at h
    split at h
    · rename_i hstates
      cases h
      exact .done hstates
    · rename_i states hstates
      simp only at h
      split at h
      · rename_i htoken
        cases h
        exact .element hstates (Prod.ext htoken rfl)
      · rename_i htoken
        obtain ⟨b, hb, rfl⟩ := (close_iff).mp h
        rw [htoken]
        exact .close hstates (Prod.ext htoken rfl) hb
      · cases h
    · rename_i states hstates
      simp only at h
      split at h
      · rename_i htoken
        split at h
        · rename_i p' hkey
          cases h
          obtain ⟨k, b, r, hk, hb, hr, rfl⟩ := (readKey_iff strtod).mp hkey
          exact .member hstates (Prod.ext htoken rfl) (Prod.ext hk rfl) hb hr
        · cases h
      · rename_i htoken
        obtain ⟨b, hb, rfl⟩ := (close_iff).mp h
        rw [htoken]
        exact .close hstates (Prod.ext htoken rfl) hb
      · cases h
  · intro h
    obtain ⟨token, rest, states, skip, builder⟩ := p
    rw [Parser.evaluate]
    cases h with
    | done hstates =>
        simp only at hstates
        subst hstates
        rfl
    | element hstates hr =>
        simp only at hstates hr
        subst hstates
        simp only [Parser.getToken, hr]
        rfl
    | @member states r r₁ r₂ k b hstates hr hk hb hr₂ =>
        simp only at hstates hr hb
        subst hstates
        have hkey := (readKey_iff strtod (p := ⟨(scan strtod r).1, (scan strtod r).2,
          false :: states, skip, builder⟩)).mpr ⟨k, b, r₂, by rw [hk], hb, by rw [hk, hr₂], rfl⟩
        simp only [Parser.getToken, hr]
        rw [hkey]
        rfl
    | @close isArray states r b hstates hr hb =>
        simp only at hstates hr hb
        subst hstates
        cases isArray
        all_goals
          rw [closing] at hr
          simp only [Parser.getToken, hr]
          exact close_iff.mpr ⟨b, hb, rfl⟩

/-- A value goes to the builder, and then it is looked at what comes after it. -/
theorem handle_iff {p : Parser} {x : Except Fault Builder} {turn : Turn} :
    p.handle strtod x = .ok turn ↔
      ∃ b, x = .ok b ∧ Evaluates strtod { p with builder := b } turn := by
  cases x with
  | error e => simp [Parser.handle]
  | ok b => simp [Parser.handle, evaluate_iff]

/-- An array or object is opened where its value could be put. -/
theorem start_iff {b b' : Builder} {f : Frame} : b.start f = .ok b' ↔
    (∃ b₁, b.handleValue f.value = .ok b₁) ∧ b' = ⟨b.root, f :: b.refStack⟩ := by
  rw [Builder.start]
  cases b.handleValue f.value with
  | error e => simp
  | ok b₁ => simp [eq_comm]

theorem switch_scalar {p : Parser} {v : Value} (h : scalar p.lastToken = some v) :
    p.switch strtod = p.handle strtod (p.builder.handleValue v) := by
  rw [Parser.switch]
  split
  · rename_i htoken
    rw [htoken] at h
    cases h
  · rename_i htoken
    rw [htoken] at h
    cases h
  · rename_i htoken
    rw [htoken] at h
    cases h
  · rename_i htoken
    rw [htoken] at h
    cases h
  · rw [h]

/-- What one turn of the loop does with a token. -/
theorem switch_iff {p : Parser} {turn : Turn} :
    p.switch strtod = .ok turn ↔ Switches strtod p turn := by
  obtain ⟨token, rest, states, skip, builder⟩ := p
  constructor
  · intro h
    rw [Parser.switch] at h
    split at h
    · rename_i htoken
      simp only at htoken
      subst htoken
      rw [Parser.beginObject] at h
      split at h
      · cases h
      · rename_i b hb
        simp only at h
        split_ifs at h with hclose
        · obtain ⟨b', hb', hturn⟩ := (handle_iff strtod).mp h
          obtain ⟨-, rfl⟩ := start_iff.mp hb
          exact .emptyObject rfl (Prod.ext hclose rfl) hb' (hclose ▸ hturn)
        · split at h
          · rename_i p' hkey
            cases h
            obtain ⟨k, b', r, hk, hb', hr, rfl⟩ := (readKey_iff strtod).mp hkey
            exact .object rfl (Prod.ext hk rfl) hb hb' hr
          · cases h
    · rename_i htoken
      simp only at htoken
      subst htoken
      rw [Parser.beginArray] at h
      split at h
      · cases h
      · rename_i b hb
        simp only at h
        split_ifs at h with hclose
        · obtain ⟨b', hb', hturn⟩ := (handle_iff strtod).mp h
          obtain ⟨-, rfl⟩ := start_iff.mp hb
          exact .emptyArray rfl (Prod.ext hclose rfl) hb' (hclose ▸ hturn)
        · cases h
          exact .array rfl hclose hb
    · cases h
    · cases h
    · split at h
      · rename_i v hv
        obtain ⟨b, hb, hturn⟩ := (handle_iff strtod).mp h
        exact .scalar hv hb hturn
      · cases h
  · intro h
    cases h with
    | scalar hv hb hturn =>
        rw [switch_scalar strtod hv]
        exact (handle_iff strtod).mpr ⟨_, hb, hturn⟩
    | emptyArray htoken hr hb hturn =>
        simp only at htoken hr
        subst htoken
        have hstart := (start_iff (f := .array [])).mpr ⟨⟨_, hb⟩, rfl⟩
        simp only [Parser.switch, Parser.beginArray, hstart, Parser.getToken, hr]
        exact (handle_iff strtod).mpr ⟨_, hb, hturn⟩
    | emptyObject htoken hr hb hturn =>
        simp only at htoken hr
        subst htoken
        have hstart := (start_iff (f := .object [] none)).mpr ⟨⟨_, hb⟩, rfl⟩
        simp only [Parser.switch, Parser.beginObject, hstart, Parser.getToken, hr]
        exact (handle_iff strtod).mpr ⟨_, hb, hturn⟩
    | array htoken hne hb =>
        simp only at htoken hne hb
        subst htoken
        simp only [Parser.switch, Parser.beginArray, hb, Parser.getToken]
        exact if_neg hne
    | @object b b' r₁ r₂ k htoken hr hb hb' hr₂ =>
        simp only at htoken hr hb
        subst htoken
        have hkey := (readKey_iff strtod (p := ⟨.valueString k, r₁, states, skip, b⟩)).mpr
          ⟨k, b', r₂, rfl, hb', hr₂, rfl⟩
        simp only [Parser.switch, Parser.beginObject, hb, Parser.getToken, hr, hkey]
        rfl

/-! ### The loop ends -/

/-- What is left to read; the end of the input is read over and over. -/
def Parser.size (p : Parser) : Nat :=
  2 * p.rest.length + if p.lastToken = .endOfInput then 0 else 1

/-- The measure of the loop: twice the input that is left, and one for a token. -/
theorem size_le (p : Parser) : p.size ≤ 2 * p.rest.length + 1 := by
  rw [Parser.size]
  split_ifs <;> omega

theorem size_of_ne {p : Parser} (h : p.lastToken ≠ .endOfInput) :
    p.size = 2 * p.rest.length + 1 := by
  rw [Parser.size, if_neg h]

/-- A token that is not the end of the input is read from it. -/
theorem length_of_scan {s r : Str} {token : Token} (h : scan strtod s = (token, r))
    (htoken : token ≠ .endOfInput) : r.length < s.length := by
  rcases length_scan strtod h with hlt | ⟨rfl, -⟩
  · exact hlt
  · exact absurd rfl htoken

/-- The next token leaves less to read, even if the input is at its end. -/
theorem size_at_lt (p : Parser) (r : Str) : (p.at strtod r).size < 2 * r.length + 1 := by
  have h := length_scan strtod (Prod.mk.eta (p := scan strtod r)).symm
  rw [Parser.size, Parser.at]
  rcases h with hlt | ⟨htoken, hrest⟩
  · split_ifs <;> simp only <;> omega
  · simp only [htoken, hrest, if_true, List.length_nil]
    omega

theorem closing_ne (isArray : Bool) : closing isArray ≠ .endOfInput := by
  cases isArray <;> decide

/-- After a value the measure goes down. -/
theorem size_evaluates {p p' : Parser} (h : Evaluates strtod p (.again p')) : p'.size < p.size := by
  have hsize : 2 * p.rest.length ≤ p.size := Nat.le_add_right _ _
  cases h with
  | @element states r hstates hr =>
      have hlt := length_of_scan strtod hr (by decide)
      have hat := size_at_lt strtod p r
      omega
  | @member states r r₁ r₂ k b hstates hr hk hb hr₂ =>
      have hlt := length_of_scan strtod hr (by decide)
      have hlt₁ := length_of_scan strtod hk (by simp)
      have hlt₂ := length_of_scan strtod hr₂ (by decide)
      have hat := size_at_lt strtod { p with builder := b } r₂
      omega
  | @close isArray states r b hstates hr hb =>
      have hlt := length_of_scan strtod hr (closing_ne isArray)
      have hle := size_le ⟨closing isArray, r, states, true, b⟩
      simp only at hle
      omega

theorem size_switches {p p' : Parser} (h : Switches strtod p (.again p')) : p'.size < p.size := by
  cases h with
  | scalar hv hb hturn =>
      have hlt := size_evaluates strtod hturn
      exact hlt
  | @emptyArray r b turn htoken hr hb hturn =>
      have hlt := length_of_scan strtod hr (by decide)
      have hnext := size_evaluates strtod hturn
      have hle := size_le { p with lastToken := .endArray, rest := r, builder := b }
      have hsize : 2 * p.rest.length ≤ p.size := Nat.le_add_right _ _
      simp only at hle
      omega
  | @emptyObject r b turn htoken hr hb hturn =>
      have hlt := length_of_scan strtod hr (by decide)
      have hnext := size_evaluates strtod hturn
      have hle := size_le { p with lastToken := .endObject, rest := r, builder := b }
      have hsize : 2 * p.rest.length ≤ p.size := Nat.le_add_right _ _
      simp only at hle
      omega
  | @array b htoken hne hb =>
      have hat := size_at_lt strtod { p with states := true :: p.states, builder := b } p.rest
      rw [size_of_ne (p := p) (by rw [htoken]; decide)]
      exact hat
  | @object b b' r₁ r₂ k htoken hr hb hb' hr₂ =>
      have hlt := length_of_scan strtod hr (by simp)
      have hlt₂ := length_of_scan strtod hr₂ (by decide)
      have hat := size_at_lt strtod { p with states := false :: p.states, builder := b' } r₂
      have hsize : 2 * p.rest.length ≤ p.size := Nat.le_add_right _ _
      omega

/-- **Every turn reads something.** -/
theorem size_turn {p p' : Parser} (h : p.turn strtod = .ok (.again p')) : p'.size < p.size := by
  rw [Parser.turn] at h
  split_ifs at h
  · have hlt := size_evaluates strtod ((evaluate_iff strtod).mp h)
    exact hlt
  · exact size_switches strtod ((switch_iff strtod).mp h)

/-- `sax_parse_internal`, from some turn of its loop on. -/
def Parser.run (p : Parser) : Except Fault Parser :=
  match _h : p.turn strtod with
  | .ok (.again p') => p'.run
  | .ok (.done p') => .ok p'
  | .error e => .error e
termination_by p.size
decreasing_by exact size_turn strtod _h

/-- The state at the first turn. -/
def Parser.first (input : Str) : Parser :=
  ⟨(firstScan strtod input).1, (firstScan strtod input).2, [], false, ⟨.null, []⟩⟩

/-- `parse`, strict and with exceptions, as `json::parse` calls it. -/
def parse (input : Str) : Except Fault Value :=
  match (Parser.first strtod input).run strtod with
  | .error e => .error e
  | .ok p =>
      let p := p.getToken strtod
      if p.lastToken = .endOfInput then .ok p.builder.root
      else .error (p.unexpected (some .endOfInput) "value".toList)

/-- What the loop makes of the end of a turn. -/
def Turn.continue : Turn → Except Fault Parser
  | .again p => p.run strtod
  | .done p => .ok p

/-- One turn, and the rest. -/
theorem run_eq (p : Parser) : p.run strtod = match p.turn strtod with
    | .ok turn => turn.continue strtod
    | .error e => .error e := by
  rw [Parser.run]
  split
  · rename_i h
    rw [h]
    rfl
  · rename_i h
    rw [h]
    rfl
  · rename_i h
    rw [h]

/-- A turn that returns, and the rest. -/
theorem run_of_turn {p : Parser} {turn : Turn} (h : p.turn strtod = .ok turn) :
    p.run strtod = turn.continue strtod := by
  rw [run_eq, h]

/-- Where a value was read, the loop goes on as `Evaluates` says. -/
theorem run_of_evaluates {p : Parser} {turn : Turn} (hskip : p.skip = true)
    (h : Evaluates strtod { p with skip := false } turn) :
    p.run strtod = turn.continue strtod := by
  refine run_of_turn strtod ?_
  rw [Parser.turn, if_pos hskip]
  exact (evaluate_iff strtod).mpr h

theorem run_of_switches {p : Parser} {turn : Turn} (hskip : p.skip = false)
    (h : Switches strtod p turn) : p.run strtod = turn.continue strtod := by
  refine run_of_turn strtod ?_
  rw [Parser.turn, hskip]
  exact (switch_iff strtod).mpr h

/-! ## The grammar -/

/-- The members of an object, those that come later over those before. -/
def assignFields (fields acc : List (Str × Value)) : List (Str × Value) :=
  fields.foldl (fun acc f => assignField f.1 f.2 acc) acc

mutual

/-- **The grammar**: the token and the text behind it start with `v`, and `r` is left. -/
inductive Reads : Token → Str → Value → Str → Prop where
  | scalar {token : Token} {v : Value} {s : Str} : scalar token = some v → Reads token s v s
  | emptyArray {s r : Str} : scan strtod s = (.endArray, r) → Reads .beginArray s (.array []) r
  | emptyObject {s r : Str} : scan strtod s = (.endObject, r) → Reads .beginObject s (.object []) r
  | array {s r r' : Str} {v : Value} {vs : List Value} :
      Reads (scan strtod s).1 (scan strtod s).2 v r → ElemsAfter r vs r' →
      Reads .beginArray s (.array (v :: vs)) r'
  | object {s r₁ r₂ r₃ r₄ k : Str} {v : Value} {fields : List (Str × Value)} :
      scan strtod s = (.valueString k, r₁) → scan strtod r₁ = (.nameSeparator, r₂) →
      Reads (scan strtod r₂).1 (scan strtod r₂).2 v r₃ → FieldsAfter r₃ fields r₄ →
      Reads .beginObject s (.object (assignFields ((k, v) :: fields) [])) r₄

/-- Behind an element of an array: the elements that follow, to the bracket. -/
inductive ElemsAfter : Str → List Value → Str → Prop where
  | close {s r : Str} : scan strtod s = (.endArray, r) → ElemsAfter s [] r
  | comma {s r₁ r₂ r₃ : Str} {v : Value} {vs : List Value} :
      scan strtod s = (.valueSeparator, r₁) →
      Reads (scan strtod r₁).1 (scan strtod r₁).2 v r₂ → ElemsAfter r₂ vs r₃ →
      ElemsAfter s (v :: vs) r₃

/-- Behind a member of an object: the members that follow, to the bracket. -/
inductive FieldsAfter : Str → List (Str × Value) → Str → Prop where
  | close {s r : Str} : scan strtod s = (.endObject, r) → FieldsAfter s [] r
  | comma {s r₁ r₂ r₃ r₄ r₅ k : Str} {v : Value} {fields : List (Str × Value)} :
      scan strtod s = (.valueSeparator, r₁) → scan strtod r₁ = (.valueString k, r₂) →
      scan strtod r₂ = (.nameSeparator, r₃) →
      Reads (scan strtod r₃).1 (scan strtod r₃).2 v r₄ → FieldsAfter r₄ fields r₅ →
      FieldsAfter s ((k, v) :: fields) r₅

end

/-! ### The loop reads what the grammar has -/

/-- Whether a value finds its place does not depend on the value. -/
theorem exists_handleValue {b b' : Builder} {v : Value} (h : b.handleValue v = .ok b')
    (w : Value) : ∃ b₁, b.handleValue w = .ok b₁ := by
  obtain ⟨root, stack⟩ := b
  cases stack with
  | nil => exact ⟨_, rfl⟩
  | cons frame stack =>
      cases frame with
      | array elems => exact ⟨_, rfl⟩
      | object fields key =>
          cases key with
          | none => cases h
          | some k => exact ⟨_, rfl⟩

/-- A bracket that closes hands the finished value on. -/
theorem run_close {isArray : Bool} {s r : Str} (hr : scan strtod s = (closing isArray, r))
    (token : Token) (states : List Bool) {b b' : Builder} (hb : b.finish = .ok b') :
    Parser.run strtod ⟨token, s, isArray :: states, true, b⟩
      = Parser.run strtod ⟨closing isArray, r, states, true, b'⟩ :=
  run_of_evaluates strtod rfl (Evaluates.close rfl hr hb)

/-- A comma in an array leads to the next value. -/
theorem run_element {s r : Str} (hr : scan strtod s = (.valueSeparator, r))
    (token : Token) (states : List Bool) (b : Builder) :
    Parser.run strtod ⟨token, s, true :: states, true, b⟩
      = Parser.run strtod ⟨(scan strtod r).1, (scan strtod r).2, true :: states, false, b⟩ :=
  run_of_evaluates strtod rfl (Evaluates.element rfl hr)

/-- A comma in an object leads to the next key and its value. -/
theorem run_member {s r r₁ r₂ k : Str} (hr : scan strtod s = (.valueSeparator, r))
    (hk : scan strtod r = (.valueString k, r₁)) (hcolon : scan strtod r₁ = (.nameSeparator, r₂))
    (token : Token) (states : List Bool) {b b' : Builder} (hb : b.key k = .ok b') :
    Parser.run strtod ⟨token, s, false :: states, true, b⟩
      = Parser.run strtod
          ⟨(scan strtod r₂).1, (scan strtod r₂).2, false :: states, false, b'⟩ :=
  run_of_evaluates strtod rfl (Evaluates.member rfl hr hk hb hcolon)

/-- An array without elements is a value like any other. -/
theorem run_emptyArray {s r : Str} (hr : scan strtod s = (.endArray, r)) (states : List Bool)
    {b b' : Builder} (hb : b.handleValue (.array []) = .ok b') :
    Parser.run strtod ⟨.beginArray, s, states, false, b⟩
      = Parser.run strtod ⟨.endArray, r, states, true, b'⟩ := by
  have hstart := (start_iff (f := .array [])).mpr ⟨⟨_, hb⟩, rfl⟩
  have hturn : Parser.turn strtod ⟨.beginArray, s, states, false, b⟩
      = Parser.turn strtod ⟨.endArray, r, states, true, b'⟩ := by
    show Parser.beginArray strtod _ = Parser.evaluate strtod _
    simp only [Parser.beginArray, hstart, Parser.getToken, hr, Builder.finish, Frame.value, hb]
    rfl
  rw [run_eq, run_eq, hturn]

theorem run_emptyObject {s r : Str} (hr : scan strtod s = (.endObject, r)) (states : List Bool)
    {b b' : Builder} (hb : b.handleValue (.object []) = .ok b') :
    Parser.run strtod ⟨.beginObject, s, states, false, b⟩
      = Parser.run strtod ⟨.endObject, r, states, true, b'⟩ := by
  have hstart := (start_iff (f := .object [] none)).mpr ⟨⟨_, hb⟩, rfl⟩
  have hturn : Parser.turn strtod ⟨.beginObject, s, states, false, b⟩
      = Parser.turn strtod ⟨.endObject, r, states, true, b'⟩ := by
    show Parser.beginObject strtod _ = Parser.evaluate strtod _
    simp only [Parser.beginObject, hstart, Parser.getToken, hr, Builder.finish, Frame.value, hb]
    rfl
  rw [run_eq, run_eq, hturn]

/-- The token that a value starts with ends no array. -/
theorem ne_endArray_of_reads {token : Token} {s r : Str} {v : Value}
    (h : Reads strtod token s v r) : token ≠ .endArray := by
  rintro rfl
  cases h with
  | scalar hv => cases hv

/-- An array with an element in it puts a frame on the stack. -/
theorem run_beginArray {s : Str} (hr : (scan strtod s).1 ≠ .endArray) (states : List Bool)
    {b b' : Builder} {v : Value} (hb : b.handleValue v = .ok b') :
    Parser.run strtod ⟨.beginArray, s, states, false, b⟩
      = Parser.run strtod ⟨(scan strtod s).1, (scan strtod s).2, true :: states, false,
          ⟨b.root, .array [] :: b.refStack⟩⟩ :=
  run_of_switches strtod rfl
    (.array rfl hr (start_iff.mpr ⟨exists_handleValue hb _, rfl⟩))

/-- So does an object, which has its first key then. -/
theorem run_beginObject {s r₁ r₂ k : Str} (hk : scan strtod s = (.valueString k, r₁))
    (hcolon : scan strtod r₁ = (.nameSeparator, r₂)) (states : List Bool)
    {b b' : Builder} {v : Value} (hb : b.handleValue v = .ok b') :
    Parser.run strtod ⟨.beginObject, s, states, false, b⟩
      = Parser.run strtod ⟨(scan strtod r₂).1, (scan strtod r₂).2, false :: states, false,
          ⟨b.root, .object [] (some k) :: b.refStack⟩⟩ :=
  run_of_switches strtod rfl
    (.object rfl hk (start_iff.mpr ⟨exists_handleValue hb _, rfl⟩) rfl hcolon)

mutual

/-- **A value of the grammar** takes the loop behind it, whatever the stacks hold. -/
theorem run_of_reads : ∀ {token : Token} {s : Str} {v : Value} {r : Str},
    Reads strtod token s v r → ∀ (states : List Bool) {b b' : Builder},
    b.handleValue v = .ok b' →
    ∃ token', Parser.run strtod ⟨token, s, states, false, b⟩
      = Parser.run strtod ⟨token', r, states, true, b'⟩
  | token, s, _, _, .scalar hv, states, b, b', hb => by
      refine ⟨token, ?_⟩
      have hturn : Parser.turn strtod ⟨token, s, states, false, b⟩
          = Parser.turn strtod ⟨token, s, states, true, b'⟩ := by
        show Parser.switch strtod _ = Parser.evaluate strtod _
        rw [switch_scalar strtod hv, hb]
        rfl
      rw [run_eq, run_eq, hturn]
  | _, _, _, _, .emptyArray hr, states, _, _, hb => ⟨_, run_emptyArray strtod hr states hb⟩
  | _, _, _, _, .emptyObject hr, states, _, _, hb => ⟨_, run_emptyObject strtod hr states hb⟩
  | _, _, _, _, .array (v := v) hv hvs, states, b, _, hb => by
      have hnext := run_beginArray strtod (ne_endArray_of_reads strtod hv) states hb
      obtain ⟨token₁, h₁⟩ := run_of_reads hv (true :: states)
        (b := ⟨b.root, .array [] :: b.refStack⟩) rfl
      obtain ⟨token₂, h₂⟩ := run_of_elemsAfter hvs token₁ states b.root b.refStack [v] hb
      exact ⟨token₂, hnext.trans (h₁.trans h₂)⟩
  | _, _, _, _, .object (k := k) (v := v) hk hcolon hv hfields, states, b, _, hb => by
      have hnext := run_beginObject strtod hk hcolon states hb
      obtain ⟨token₁, h₁⟩ := run_of_reads hv (false :: states)
        (b := ⟨b.root, .object [] (some k) :: b.refStack⟩) rfl
      obtain ⟨token₂, h₂⟩ := run_of_fieldsAfter hfields token₁ states b.root b.refStack
        [(k, v)] none hb
      exact ⟨token₂, hnext.trans (h₁.trans h₂)⟩

/-- The rest of an array, by induction on its derivation: the frame collects the values. -/
theorem run_of_elemsAfter : ∀ {s : Str} {vs : List Value} {r : Str},
    ElemsAfter strtod s vs r → ∀ (token : Token) (states : List Bool) (root : Value)
    (stack : List Frame) (elems : List Value) {b' : Builder},
    Builder.handleValue (.array (elems ++ vs)) ⟨root, stack⟩ = .ok b' →
    ∃ token', Parser.run strtod ⟨token, s, true :: states, true, ⟨root, .array elems :: stack⟩⟩
      = Parser.run strtod ⟨token', r, states, true, b'⟩
  | _, _, _, .close hr, token, states, root, stack, elems, _, hb => by
      rw [List.append_nil] at hb
      exact ⟨_, run_close strtod hr token states hb⟩
  | _, _, _, .comma (v := v) hr hv hvs, token, states, root, stack, elems, _, hb => by
      have hnext := run_element strtod hr token states ⟨root, .array elems :: stack⟩
      obtain ⟨token₁, h₁⟩ := run_of_reads hv (true :: states)
        (b := ⟨root, .array elems :: stack⟩) rfl
      rw [List.append_cons] at hb
      obtain ⟨token₂, h₂⟩ := run_of_elemsAfter hvs token₁ states root stack (elems ++ [v]) hb
      exact ⟨token₂, hnext.trans (h₁.trans h₂)⟩

/-- The rest of an object. -/
theorem run_of_fieldsAfter : ∀ {s : Str} {fields : List (Str × Value)} {r : Str},
    FieldsAfter strtod s fields r → ∀ (token : Token) (states : List Bool) (root : Value)
    (stack : List Frame) (acc : List (Str × Value)) (key : Option Str) {b' : Builder},
    Builder.handleValue (.object (assignFields fields acc)) ⟨root, stack⟩ = .ok b' →
    ∃ token', Parser.run strtod
        ⟨token, s, false :: states, true, ⟨root, .object acc key :: stack⟩⟩
      = Parser.run strtod ⟨token', r, states, true, b'⟩
  | _, _, _, .close hr, token, states, _, _, _, _, _, hb =>
      ⟨_, run_close strtod hr token states hb⟩
  | _, _, _, .comma (k := k) (v := v) hr hk hcolon hv hfields, token, states, root, stack, acc,
    key, b', hb => by
      have hnext := run_member strtod hr hk hcolon token states
        (b := ⟨root, .object acc key :: stack⟩) rfl
      obtain ⟨token₁, h₁⟩ := run_of_reads hv (false :: states)
        (b := ⟨root, .object acc (some k) :: stack⟩) rfl
      obtain ⟨token₂, h₂⟩ := run_of_fieldsAfter hfields token₁ states root stack
        (assignField k v acc) none hb
      exact ⟨token₂, hnext.trans (h₁.trans h₂)⟩

end

/-! ### What the loop reads is in the grammar -/

/-- **What the stacks still ask of the text**: for each level the rest of it and its
    bracket; then the root is `v`, and `r` is left. -/
inductive Closes : Builder → Str → Value → Str → Prop where
  | done {v : Value} {s : Str} : Closes ⟨v, []⟩ s v s
  | array {root v : Value} {elems vs : List Value} {stack : List Frame} {s s' r : Str}
      {b : Builder} : ElemsAfter strtod s vs s' →
      Builder.handleValue (.array (elems ++ vs)) ⟨root, stack⟩ = .ok b → Closes b s' v r →
      Closes ⟨root, .array elems :: stack⟩ s v r
  | object {root v : Value} {acc fields : List (Str × Value)} {key : Option Str}
      {stack : List Frame} {s s' r : Str} {b : Builder} : FieldsAfter strtod s fields s' →
      Builder.handleValue (.object (assignFields fields acc)) ⟨root, stack⟩ = .ok b →
      Closes b s' v r → Closes ⟨root, .object acc key :: stack⟩ s v r

/-- The two stacks have the same levels. -/
def Parser.Agrees (p : Parser) : Prop := p.states = p.builder.refStack.map Frame.isArray

theorem levels_handleValue {b b' : Builder} {v : Value} (h : b.handleValue v = .ok b') :
    b'.refStack.map Frame.isArray = b.refStack.map Frame.isArray := by
  obtain ⟨root, stack⟩ := b
  cases stack with
  | nil =>
      cases h
      rfl
  | cons frame stack =>
      cases frame with
      | array elems =>
          cases h
          rfl
      | object fields key =>
          cases key with
          | none => cases h
          | some k =>
              cases h
              rfl

/-- A key can only be given to an object. -/
theorem key_cases {b b' : Builder} {k : Str} (h : b.key k = .ok b') :
    ∃ root fields key stack, b = ⟨root, .object fields key :: stack⟩ ∧
      b' = ⟨root, .object fields (some k) :: stack⟩ := by
  rw [Builder.key.eq_def] at h
  split at h
  · cases h
    exact ⟨_, _, _, _, rfl, rfl⟩
  · cases h

/-- Finishing hands the value of the top frame to the one below. -/
theorem finish_cases {b b' : Builder} (h : b.finish = .ok b') :
    ∃ root frame stack, b = ⟨root, frame :: stack⟩ ∧
      Builder.handleValue frame.value ⟨root, stack⟩ = .ok b' := by
  rw [Builder.finish.eq_def] at h
  split at h
  · exact ⟨_, _, _, rfl, h⟩
  · cases h

/-- What a run that ends in `p'` has read from `p` on. -/
structure HasRead (p p' : Parser) : Prop where
  behind : p.skip = true → Closes strtod p.builder p.rest p'.builder.root p'.rest
  value : p.skip = false → ∃ v r b, Reads strtod p.lastToken p.rest v r ∧
    p.builder.handleValue v = .ok b ∧ Closes strtod b r p'.builder.root p'.rest

section Turns

variable {p p' : Parser}
  (ih : ∀ q : Parser, q.size < p.size → q.Agrees → q.run strtod = .ok p' → HasRead strtod q p')

include ih

/-- **Behind a value.** -/
theorem closes_of_evaluates (hagrees : p.Agrees) (hskip : p.skip = false) {turn : Turn}
    (h : Evaluates strtod p turn) (hrun : turn.continue strtod = .ok p') :
    Closes strtod p.builder p.rest p'.builder.root p'.rest := by
  obtain ⟨token, s, states, skip, root, stack⟩ := p
  simp only at hskip
  subst hskip
  cases h with
  | done hstates =>
      cases hrun
      have hempty : stack.map Frame.isArray = [] := hagrees.symm.trans hstates
      rw [List.map_eq_nil_iff] at hempty
      subst hempty
      exact .done
  | @element states' r hstates hr =>
      simp only at hstates hr
      have hsize := size_evaluates strtod (Evaluates.element (p := ⟨token, s, states, false,
        root, stack⟩) hstates hr)
      obtain ⟨v, r₂, b, hv, hb, hcloses⟩ := (ih _ hsize hagrees hrun).value rfl
      cases stack with
      | nil => cases hstates.symm.trans hagrees
      | cons frame stack =>
          cases frame with
          | object fields key => cases hstates.symm.trans hagrees
          | array elems =>
              cases hb
              cases hcloses with
              | array hafter hhandle hcloses =>
                  rw [List.append_assoc] at hhandle
                  exact .array (.comma hr hv hafter) hhandle hcloses
  | @member states' r r₁ r₂ k b hstates hr hk hb hr₂ =>
      simp only at hstates hr hb
      have hsize := size_evaluates strtod (Evaluates.member (p := ⟨token, s, states, false,
        root, stack⟩) hstates hr hk hb hr₂)
      obtain ⟨root, fields, key, stack, hbefore, rfl⟩ := key_cases hb
      cases hbefore
      obtain ⟨v, r₃, b, hv, hb, hcloses⟩ := (ih _ hsize hagrees hrun).value rfl
      cases hb
      cases hcloses with
      | object hafter hhandle hcloses =>
          exact .object (.comma hr hk hr₂ hv hafter) hhandle hcloses
  | @close isArray states' r b hstates hr hb =>
      simp only at hstates hr hb
      have hsize := size_evaluates strtod (Evaluates.close (p := ⟨token, s, states, false,
        root, stack⟩) hstates hr hb)
      obtain ⟨root, frame, stack, hbefore, hhandle⟩ := finish_cases hb
      cases hbefore
      have hlevels : isArray :: states' = frame.isArray :: stack.map Frame.isArray :=
        hstates.symm.trans hagrees
      obtain ⟨rfl, rfl⟩ := List.cons.inj hlevels
      have hcloses := (ih _ hsize (levels_handleValue hhandle).symm hrun).behind rfl
      cases frame with
      | array elems =>
          refine .array (.close hr) ?_ hcloses
          rw [List.append_nil]
          exact hhandle
      | object fields key => exact .object (.close hr) hhandle hcloses

/-- **At a value.** -/
theorem reads_of_switches (hagrees : p.Agrees) (hskip : p.skip = false) {turn : Turn}
    (h : Switches strtod p turn) (hrun : turn.continue strtod = .ok p') :
    ∃ v r b, Reads strtod p.lastToken p.rest v r ∧ p.builder.handleValue v = .ok b ∧
      Closes strtod b r p'.builder.root p'.rest := by
  obtain ⟨token, s, states, skip, builder⟩ := p
  simp only at hskip
  subst hskip
  cases h with
  | @scalar v b turn hv hb hturn =>
      exact ⟨v, s, b, .scalar hv, hb, closes_of_evaluates strtod
        (p := ⟨token, s, states, false, b⟩) ih (hagrees.trans (levels_handleValue hb).symm) rfl
        hturn hrun⟩
  | @emptyArray r b turn htoken hr hb hturn =>
      simp only at htoken hr
      subst htoken
      have hlt := length_of_scan strtod hr (by decide)
      have hsize : Parser.size ⟨.endArray, r, states, false, b⟩
          ≤ Parser.size ⟨.beginArray, s, states, false, builder⟩ := by
        rw [size_of_ne (by simp), size_of_ne (by simp)]
        simp only
        omega
      exact ⟨_, r, b, .emptyArray hr, hb, closes_of_evaluates strtod
        (p := ⟨.endArray, r, states, false, b⟩) (fun q hq => ih q (hq.trans_le hsize))
        (hagrees.trans (levels_handleValue hb).symm) rfl hturn hrun⟩
  | @emptyObject r b turn htoken hr hb hturn =>
      simp only at htoken hr
      subst htoken
      have hlt := length_of_scan strtod hr (by decide)
      have hsize : Parser.size ⟨.endObject, r, states, false, b⟩
          ≤ Parser.size ⟨.beginObject, s, states, false, builder⟩ := by
        rw [size_of_ne (by simp), size_of_ne (by simp)]
        simp only
        omega
      exact ⟨_, r, b, .emptyObject hr, hb, closes_of_evaluates strtod
        (p := ⟨.endObject, r, states, false, b⟩) (fun q hq => ih q (hq.trans_le hsize))
        (hagrees.trans (levels_handleValue hb).symm) rfl hturn hrun⟩
  | @array b htoken hne hb =>
      simp only at htoken hne hb
      subst htoken
      have hsize := size_switches strtod (Switches.array (p := ⟨.beginArray, s, states, false,
        builder⟩) rfl hne hb)
      obtain ⟨-, rfl⟩ := start_iff.mp hb
      obtain ⟨v, r, b, hv, hb, hcloses⟩ :=
        (ih _ hsize (congrArg (true :: ·) hagrees) hrun).value rfl
      cases hb
      cases hcloses with
      | array hafter hhandle hcloses => exact ⟨_, _, _, .array hv hafter, hhandle, hcloses⟩
  | @object b b' r₁ r₂ k htoken hr hb hb' hr₂ =>
      simp only at htoken hr hb
      subst htoken
      have hsize := size_switches strtod (Switches.object (p := ⟨.beginObject, s, states, false,
        builder⟩) rfl hr hb hb' hr₂)
      obtain ⟨-, rfl⟩ := start_iff.mp hb
      cases hb'
      obtain ⟨v, r, b, hv, hb, hcloses⟩ :=
        (ih _ hsize (congrArg (false :: ·) hagrees) hrun).value rfl
      cases hb
      cases hcloses with
      | object hafter hhandle hcloses =>
          exact ⟨_, _, _, .object hr hr₂ hv hafter, hhandle, hcloses⟩

end Turns

/-- **A run that ends has read a value** and what the stacks asked for. -/
theorem hasRead_of_run {p p' : Parser} (hagrees : p.Agrees) (hrun : p.run strtod = .ok p') :
    HasRead strtod p p' := by
  induction hn : p.size using Nat.strong_induction_on generalizing p with
  | _ n ih =>
      subst hn
      have hnext : ∀ q : Parser, q.size < p.size → q.Agrees → q.run strtod = .ok p' →
          HasRead strtod q p' := fun q hq hagrees hrun => ih q.size hq hagrees hrun rfl
      rw [run_eq, Parser.turn] at hrun
      constructor
      · intro hskip
        rw [if_pos hskip] at hrun
        split at hrun
        · rename_i turn hturn
          exact closes_of_evaluates strtod (p := { p with skip := false }) hnext hagrees rfl
            ((evaluate_iff strtod).mp hturn) hrun
        · cases hrun
      · intro hskip
        rw [if_neg (by rw [hskip]; decide)] at hrun
        split at hrun
        · rename_i turn hturn
          exact reads_of_switches strtod hnext hagrees hskip ((switch_iff strtod).mp hturn) hrun
        · cases hrun

/-- A text of the grammar: a value, and nothing behind it. -/
def IsText (input : Str) (v : Value) : Prop :=
  ∃ r, Reads strtod (firstScan strtod input).1 (firstScan strtod input).2 v r ∧
    (scan strtod r).1 = .endOfInput

/-- What is accepted is a text of the grammar. -/
theorem isText_of_parse {input : Str} {v : Value} (h : parse strtod input = .ok v) :
    IsText strtod input v := by
  rw [parse] at h
  cases hrun : (Parser.first strtod input).run strtod with
  | error e =>
      rw [hrun] at h
      cases h
  | ok p =>
      rw [hrun] at h
      simp only at h
      split_ifs at h with hend
      cases h
      obtain ⟨w, r, b, hw, hb, hcloses⟩ := (hasRead_of_run strtod
        (show (Parser.first strtod input).Agrees from rfl) hrun).value rfl
      cases hb
      cases hcloses
      exact ⟨p.rest, hw, hend⟩

/-- A text of the grammar is accepted. -/
theorem parse_of_isText {input : Str} {v : Value} (h : IsText strtod input v) :
    parse strtod input = .ok v := by
  obtain ⟨r, hv, hend⟩ := h
  obtain ⟨token, hrun⟩ := run_of_reads strtod hv [] (b := ⟨.null, []⟩) rfl
  have hdone : Parser.run strtod ⟨token, r, [], true, ⟨v, []⟩⟩
      = .ok ⟨token, r, [], false, ⟨v, []⟩⟩ := run_of_evaluates strtod rfl (.done rfl)
  rw [parse, Parser.first, hrun, hdone]
  exact if_pos hend

/-- **The parser accepts exactly the grammar**, and builds the value that it derives. -/
theorem parse_iff (input : Str) (v : Value) :
    parse strtod input = .ok v ↔ IsText strtod input v :=
  ⟨isText_of_parse strtod, parse_of_isText strtod⟩

/-! ## No assertion fails -/

/-- It throws nothing but what the parser throws on purpose, and what it returns is `P`. -/
def Safe {α : Type} (P : α → Prop) : Except Fault α → Prop
  | .ok a => P a
  | .error e => e ≠ .assertion

theorem safe_unexpected {α : Type} (P : α → Prop) (p : Parser) (expected : Option Expected)
    (context : Str) : Safe P (.error (p.unexpected expected context)) := by
  rw [Safe, Parser.unexpected]
  simp

/-- A pointer into the object is at hand when a value has to go there. -/
def Frame.Keyed : Frame → Prop
  | .array _ => True
  | .object _ key => key.isSome

/-- **The invariant**: the stacks agree, and every object that is being read into has a
    key, the innermost one unless a value was just put there. -/
structure Parser.Sound (p : Parser) : Prop where
  agrees : p.Agrees
  outer : ∀ f ∈ p.builder.refStack.tail, f.Keyed
  inner : p.skip = false → ∀ f ∈ p.builder.refStack.head?, f.Keyed

def Turn.Sound : Turn → Prop
  | .again p => p.Sound
  | .done _ => True

/-- The value finds its place. -/
theorem exists_handleValue_of_keyed {b : Builder} (hinner : ∀ f ∈ b.refStack.head?, f.Keyed)
    (v : Value) : ∃ b', b.handleValue v = .ok b' ∧ b'.refStack.tail = b.refStack.tail := by
  obtain ⟨root, stack⟩ := b
  cases stack with
  | nil => exact ⟨_, rfl, rfl⟩
  | cons frame stack =>
      cases frame with
      | array elems => exact ⟨_, rfl, rfl⟩
      | object fields key =>
          obtain ⟨k, rfl⟩ := Option.isSome_iff_exists.mp (hinner _ rfl)
          exact ⟨_, rfl, rfl⟩

/-- The bracket of the innermost array or object: what stands around it takes the value. -/
theorem safe_finish {b : Builder} {isArray : Bool} {states : List Bool}
    (hlevels : isArray :: states = b.refStack.map Frame.isArray)
    (houter : ∀ f ∈ b.refStack.tail, f.Keyed) :
    ∃ b', b.finish = .ok b' ∧ states = b'.refStack.map Frame.isArray ∧
      ∀ f ∈ b'.refStack.tail, f.Keyed := by
  obtain ⟨root, stack⟩ := b
  cases stack with
  | nil => cases hlevels
  | cons frame stack =>
      obtain ⟨-, rfl⟩ := List.cons.inj hlevels
      obtain ⟨b', hb', htail⟩ := exists_handleValue_of_keyed (b := ⟨root, stack⟩)
        (fun f hf => houter f (List.mem_of_mem_head? hf)) frame.value
      refine ⟨b', hb', (levels_handleValue hb').symm, ?_⟩
      rw [htail]
      exact fun f hf => houter f (List.mem_of_mem_tail hf)

/-- Closing trips no assertion, where the two stacks agree. -/
theorem safe_close {p : Parser} {isArray : Bool} {states : List Bool}
    (hlevels : isArray :: states = p.builder.refStack.map Frame.isArray)
    (houter : ∀ f ∈ p.builder.refStack.tail, f.Keyed) : Safe Turn.Sound (p.close states) := by
  obtain ⟨b', hb', hstates, htail⟩ := safe_finish hlevels houter
  rw [Parser.close, hb']
  exact ⟨hstates, htail, fun hskip => by cases hskip⟩

/-- The innermost frame is an object: a key makes it ready for a value. -/
theorem safe_readKey {p : Parser} {states : List Bool}
    (hlevels : false :: states = p.builder.refStack.map Frame.isArray)
    (houter : ∀ f ∈ p.builder.refStack.tail, f.Keyed) :
    Safe (fun p' : Parser => p'.states = p.states ∧
      p'.builder.refStack.map Frame.isArray = p.builder.refStack.map Frame.isArray ∧
      ∀ f ∈ p'.builder.refStack, f.Keyed) (p.readKey strtod) := by
  rw [Parser.readKey]
  split
  · obtain ⟨token, s, states', skip, root, stack⟩ := p
    cases stack with
    | nil => cases hlevels
    | cons frame stack =>
        cases frame with
        | array elems => cases hlevels
        | object fields key =>
            simp only [Builder.key]
            split_ifs
            · refine ⟨rfl, rfl, fun f hf => ?_⟩
              rcases List.mem_cons.mp hf with rfl | hf
              · rfl
              · exact houter f hf
            · exact safe_unexpected _ _ _ _
  · exact safe_unexpected _ _ _ _

theorem keyed_of_isArray {stack : List Frame} {states : List Bool}
    (h : true :: states = stack.map Frame.isArray) : ∀ f ∈ stack.head?, f.Keyed := by
  cases stack with
  | nil => cases h
  | cons frame stack =>
      cases frame with
      | object fields key => cases h
      | array elems =>
          rintro f ⟨rfl⟩
          trivial

theorem sound_of_keyed {p : Parser} (hagrees : p.Agrees)
    (hkeyed : ∀ f ∈ p.builder.refStack, f.Keyed) : p.Sound where
  agrees := hagrees
  outer f hf := hkeyed f (List.mem_of_mem_tail hf)
  inner _ f hf := hkeyed f (List.mem_of_mem_head? hf)

/-- Before a value every object on the stack has its key. -/
theorem keyed_of_sound {p : Parser} (h : p.Sound) (hskip : p.skip = false) :
    ∀ f ∈ p.builder.refStack, f.Keyed := by
  have hinner := h.inner hskip
  have houter := h.outer
  cases hstack : p.builder.refStack with
  | nil => exact fun f hf => by cases hf
  | cons frame stack =>
      rw [hstack] at hinner houter
      intro f hf
      rcases List.mem_cons.mp hf with rfl | hf
      · exact hinner f rfl
      · exact houter f hf

/-- **Behind a value.** -/
theorem safe_evaluate {p : Parser} (hagrees : p.Agrees)
    (houter : ∀ f ∈ p.builder.refStack.tail, f.Keyed) :
    Safe Turn.Sound (p.evaluate strtod) := by
  rw [Parser.evaluate]
  split
  · trivial
  · rename_i states hstates
    have hlevels : true :: states = p.builder.refStack.map Frame.isArray :=
      hstates.symm.trans hagrees
    simp only
    split
    · exact ⟨hagrees, houter, fun _ => keyed_of_isArray hlevels⟩
    · exact safe_close hlevels houter
    · exact safe_unexpected _ _ _ _
  · rename_i states hstates
    have hlevels : false :: states = p.builder.refStack.map Frame.isArray :=
      hstates.symm.trans hagrees
    simp only
    split
    · have hkey := safe_readKey strtod
        (p := Parser.getToken strtod (Parser.getToken strtod p)) hlevels houter
      split
      · rename_i p' hp'
        rw [hp'] at hkey
        exact sound_of_keyed (hkey.1.trans (hagrees.trans hkey.2.1.symm)) hkey.2.2
      · rename_i e he
        rw [he] at hkey
        exact hkey
    · exact safe_close hlevels houter
    · exact safe_unexpected _ _ _ _

/-- Nor does handing over a value, if every object has a key. -/
theorem safe_handle {p : Parser} {b : Builder} {v : Value}
    (hlevels : p.states = b.refStack.map Frame.isArray) (hkeyed : ∀ f ∈ b.refStack, f.Keyed) :
    Safe Turn.Sound (p.handle strtod (b.handleValue v)) := by
  obtain ⟨b', hb', htail⟩ := exists_handleValue_of_keyed
    (fun f hf => hkeyed f (List.mem_of_mem_head? hf)) v
  rw [hb']
  refine safe_evaluate strtod (p := { p with builder := b' })
    (hlevels.trans (levels_handleValue hb').symm) fun f hf => ?_
  rw [htail] at hf
  exact hkeyed f (List.mem_of_mem_tail hf)

theorem start_of_keyed {b : Builder} (hkeyed : ∀ f ∈ b.refStack, f.Keyed) (frame : Frame) :
    b.start frame = .ok ⟨b.root, frame :: b.refStack⟩ := by
  obtain ⟨b', hb', -⟩ := exists_handleValue_of_keyed
    (fun f hf => hkeyed f (List.mem_of_mem_head? hf)) frame.value
  exact start_iff.mpr ⟨⟨b', hb'⟩, rfl⟩

/-- **At a value.** -/
theorem safe_switch {p : Parser} (hsound : p.Sound) (hskip : p.skip = false) :
    Safe Turn.Sound (p.switch strtod) := by
  have hkeyed := keyed_of_sound hsound hskip
  rw [Parser.switch]
  split
  · rw [Parser.beginObject, start_of_keyed hkeyed]
    simp only
    split_ifs with hclose
    · exact safe_handle strtod hsound.agrees hkeyed
    · have hkey := safe_readKey strtod (p := Parser.getToken strtod
        { p with builder := ⟨p.builder.root, .object [] none :: p.builder.refStack⟩ })
        (congrArg (false :: ·) hsound.agrees) hkeyed
      split
      · rename_i p' hp'
        rw [hp'] at hkey
        refine sound_of_keyed ?_ hkey.2.2
        show false :: p'.states = _
        rw [hkey.2.1, hkey.1]
        exact congrArg (false :: ·) hsound.agrees
      · rename_i e he
        rw [he] at hkey
        exact hkey
  · rw [Parser.beginArray, start_of_keyed hkeyed]
    simp only
    split_ifs with hclose
    · exact safe_handle strtod hsound.agrees hkeyed
    · refine sound_of_keyed (congrArg (true :: ·) hsound.agrees) fun f hf => ?_
      rcases List.mem_cons.mp hf with rfl | hf
      · trivial
      · exact hkeyed f hf
  · rw [Safe]
    simp
  · exact safe_unexpected _ _ _ _
  · split
    · exact safe_handle strtod hsound.agrees hkeyed
    · exact safe_unexpected _ _ _ _

/-- **A run** from a state of the invariant trips no assertion. -/
theorem safe_run {p : Parser} (hsound : p.Sound) : p.run strtod ≠ .error .assertion := by
  induction hn : p.size using Nat.strong_induction_on generalizing p with
  | _ n ih =>
      subst hn
      have hturn : Safe Turn.Sound (p.turn strtod) := by
        rw [Parser.turn]
        split_ifs with hskip
        · exact safe_evaluate strtod (p := { p with skip := false }) hsound.agrees hsound.outer
        · exact safe_switch strtod hsound (by simpa using hskip)
      rw [run_eq]
      split
      · rename_i turn hok
        rw [hok] at hturn
        cases turn with
        | again p' => exact ih p'.size (size_turn strtod hok) hturn rfl
        | done p' => simp [Turn.continue]
      · rename_i e he
        rw [he] at hturn
        intro heq
        cases heq
        exact hturn rfl

/-- **The assertions hold**, on every text: the stack of pointers is never empty where it
    is popped, and there is an element to assign to. -/
theorem parse_defined (input : Str) : parse strtod input ≠ .error .assertion := by
  have hsound : (Parser.first strtod input).Sound := sound_of_keyed rfl fun f hf => by cases hf
  have hrun := safe_run strtod hsound
  rw [parse]
  split
  · rename_i e he
    intro heq
    cases heq
    exact hrun he
  · simp only
    split_ifs
    · simp
    · simp [Parser.unexpected]

end Parse

end TgnewsJsonParser
