import Mathlib.Tactic
import PathForecast.Json.Numeral
import PathForecast.Json.Writer
import PathForecast.Proofs.Json.Quotation

/-!
# The tokens of written text

Text is read token by token, and blanks between tokens do not matter: `Lexed` says which tokens a
text has. Written text has the tokens of its value, whether it is written in one line or in many.
Main statements: `lex_compact` and `lex_pretty`.
-/

set_option autoImplicit false

namespace PathForecast

open JsonValue JsonToken

/-! ## Numerals -/

def digitBytes (n : Nat) : Bytes := (Decimal.digitsOf n).map fun c => c.toNat.toUInt8

theorem toNat_of_isDigit {c : Char} (h : c.isDigit = true) :
    c.toNat.toUInt8.toNat = c.toNat ∧ 48 ≤ c.toNat ∧ c.toNat ≤ 57 := by
  rw [Char.isDigit, Bool.and_eq_true, decide_eq_true_eq, decide_eq_true_eq] at h
  have hlow : 48 ≤ c.toNat := h.1
  have hhigh : c.toNat ≤ 57 := h.2
  refine ⟨Nat.mod_eq_of_lt ?_, hlow, hhigh⟩
  omega

theorem isDigit_toUInt8 {c : Char} (h : c.isDigit = true) :
    JsonValue.isDigit c.toNat.toUInt8 = true := by
  obtain ⟨hbyte, hlow, hhigh⟩ := toNat_of_isDigit h
  simp only [JsonValue.isDigit, Bool.and_eq_true, decide_eq_true_eq, UInt8.le_iff_toNat_le, hbyte]
  exact ⟨hlow, hhigh⟩

theorem isDigit_of_mem_digitBytes {n : Nat} {b : UInt8} (h : b ∈ digitBytes n) :
    JsonValue.isDigit b = true := by
  obtain ⟨c, hc, rfl⟩ := List.mem_map.mp h
  exact isDigit_toUInt8 (Nat.isDigit_of_mem_toDigits (by decide) (by decide) hc)

theorem digitBytes_ne_nil (n : Nat) : digitBytes n ≠ [] :=
  fun h => Nat.toDigits_ne_nil (List.map_eq_nil_iff.mp h)

/-- Only zero begins with a zero. -/
theorem head?_toDigits (n : Nat) (hn : n ≠ 0) : (Nat.toDigits 10 n).head? ≠ some '0' := by
  induction n using Nat.strongRecOn with
  | ind n ih =>
      rw [Nat.toDigits_eq_if (by decide)]
      split
      · next hlt =>
          have hdigit : ∀ d : Nat, d < 10 → d ≠ 0 → d.digitChar ≠ '0' := by decide
          rw [List.head?_cons]
          exact fun h => hdigit n hlt hn (Option.some.inj h)
      · next hge =>
          have hrest := ih (n / 10) (by omega) (by omega)
          rw [List.head?_append_of_ne_nil _ Nat.toDigits_ne_nil]
          exact hrest

/-- The digits of a number spell it. -/
theorem natural?_digitBytes (n : Nat) : Numeral.natural? (digitBytes n) = some n := by
  have hall : (digitBytes n).all JsonValue.isDigit = true :=
    List.all_eq_true.mpr fun b hb => isDigit_of_mem_digitBytes hb
  have hvalue : Numeral.valueOf ((digitBytes n).map digitValue) = n := by
    have hdigits : ∀ c ∈ Nat.toDigits 10 n, digitValue c.toNat.toUInt8 = c.toNat - '0'.toNat := by
      intro c hc
      have hbyte := toNat_of_isDigit (Nat.isDigit_of_mem_toDigits (by decide) (by decide) hc)
      rw [digitValue, hbyte.1]
      rfl
    have hmap : (digitBytes n).map digitValue =
        (Nat.toDigits 10 n).map fun c => c.toNat - '0'.toNat := by
      rw [digitBytes, List.map_map]
      exact List.map_congr_left hdigits
    rw [hmap, Numeral.valueOf, List.foldl_map, ← Nat.ofDigitChars_eq_foldl]
    exact Nat.ofDigitChars_ten_toDigits
  rw [Numeral.natural?, if_pos ⟨digitBytes_ne_nil n, hall⟩, hvalue]

/-- What may follow a number: nothing that could be a part of it. -/
def EndsNumber (rest : Bytes) : Prop :=
  ∀ b ∈ rest.head?, JsonValue.isDigit b = false ∧ b ≠ 0x2e ∧ b ≠ 0x65 ∧ b ≠ 0x45

theorem digits?_append {ds rest : Bytes} (hne : ds ≠ [])
    (hall : ∀ b ∈ ds, JsonValue.isDigit b = true) (hrest : EndsNumber rest) :
    digits? (ds ++ rest) = some (ds, rest) := by
  have hstop : rest.takeWhile JsonValue.isDigit = [] := by
    cases rest with
    | nil => rfl
    | cons b rest => exact List.takeWhile_cons_of_neg (by rw [(hrest b rfl).1]; decide)
  have htake : (ds ++ rest).takeWhile JsonValue.isDigit = ds := by
    rw [List.takeWhile_append_of_pos hall, hstop, List.append_nil]
  have hsome : ds.isEmpty = false := List.isEmpty_eq_false_iff.mpr hne
  simp [digits?, htake, hsome]

theorem digitBytes_eq_cons (n : Nat) (hn : n ≠ 0) :
    ∃ b ds, digitBytes n = b :: ds ∧ JsonValue.isDigit b = true ∧ b ≠ 0x30 := by
  cases hds : Nat.toDigits 10 n with
  | nil => exact absurd hds Nat.toDigits_ne_nil
  | cons c cs =>
      have hc : c ∈ Nat.toDigits 10 n := hds ▸ List.mem_cons_self
      have hdigit := Nat.isDigit_of_mem_toDigits (by decide) (by decide) hc
      refine ⟨c.toNat.toUInt8, cs.map fun c => c.toNat.toUInt8, ?_, isDigit_toUInt8 hdigit, ?_⟩
      · rw [digitBytes, Decimal.digitsOf, hds, List.map_cons]
      · intro hzero
        have hfirst := head?_toDigits n hn
        rw [hds, List.head?_cons] at hfirst
        refine hfirst (congrArg some (Char.ext (UInt32.toNat_inj.mp ?_)))
        have hbyte := congrArg UInt8.toNat hzero
        rw [(toNat_of_isDigit hdigit).1] at hbyte
        exact hbyte

theorem whole?_digitBytes (n : Nat) {rest : Bytes} (hrest : EndsNumber rest) :
    whole? (digitBytes n ++ rest) = some (digitBytes n, rest) := by
  by_cases hn : n = 0
  · rw [hn]
    rfl
  · have hdigits := digits?_append (digitBytes_ne_nil n)
      (fun b hb => isDigit_of_mem_digitBytes hb) hrest
    obtain ⟨b, ds, hds, -, hb⟩ := digitBytes_eq_cons n hn
    rw [hds] at hdigits ⊢
    rw [List.cons_append] at hdigits ⊢
    rw [whole?, hdigits]
    exact fun _ h => hb (List.cons.inj h).1

theorem unsigned?_digitBytes (n : Nat) {rest : Bytes} (hrest : EndsNumber rest) :
    unsigned? (digitBytes n ++ rest) = some (digitBytes n, rest) := by
  have hfraction : fraction? rest = some ([], rest) := by
    cases rest with
    | nil => rfl
    | cons b rest =>
        rw [fraction?]
        exact fun _ h => (hrest b rfl).2.1 (List.cons.inj h).1
  have hexponent : exponent? rest = some ([], rest) := by
    cases rest with
    | nil => rfl
    | cons b rest =>
        obtain ⟨-, -, he, hE⟩ := hrest b rfl
        simp [exponent?, he, hE]
  simp [unsigned?, whole?_digitBytes n hrest, hfraction, hexponent]

/-- A numeral is one token. -/
theorem next?_digitBytes (n : Nat) {rest : Bytes} (hrest : EndsNumber rest) :
    next? (digitBytes n ++ rest) = some (.scalar (.number (digitBytes n)), rest) := by
  have hnumber := unsigned?_digitBytes n hrest
  obtain ⟨b, ds, hds, hb⟩ : ∃ b ds, digitBytes n = b :: ds ∧ JsonValue.isDigit b = true := by
    cases hds : digitBytes n with
    | nil => exact absurd hds (digitBytes_ne_nil n)
    | cons b ds => exact ⟨b, ds, rfl, isDigit_of_mem_digitBytes (hds ▸ List.mem_cons_self)⟩
  rw [hds] at hnumber ⊢
  rw [List.cons_append] at hnumber ⊢
  rw [next?, number?, hnumber]
  · rfl
  -- no other token begins with a digit
  all_goals
    rintro _ h
    obtain ⟨rfl, -⟩ := List.cons.inj h
    revert hb
    decide

/-! ## Texts and tokens -/

/-- The tokens of a text, one after the other. -/
inductive Lexed : Bytes → List JsonToken → Prop
  | done : Lexed [] []
  | blank {c : UInt8} {rest : Bytes} {ts : List JsonToken} (hc : isBlank c = true)
      (h : Lexed rest ts) : Lexed (c :: rest) ts
  | token {c : UInt8} {b rest : Bytes} {t : JsonToken} {ts : List JsonToken}
      (hc : isBlank c = false) (hnext : next? (c :: b) = some (t, rest))
      (hrest : rest <:+ b) (h : Lexed rest ts) : Lexed (c :: b) (t :: ts)

theorem lexInto_of_lexed {b : Bytes} {ts : List JsonToken} (h : Lexed b ts) :
    ∀ (done : List JsonToken) (fuel : Nat), b.length < fuel →
      lexInto done fuel b = some (done.reverse ++ ts) := by
  induction h with
  | done =>
      intro done fuel hfuel
      obtain ⟨n, rfl⟩ := Nat.exists_eq_add_of_lt hfuel
      rw [List.append_nil]
      rfl
  | @blank c rest ts hc _ ih =>
      intro done fuel hfuel
      rw [← ih done fuel (Nat.lt_of_succ_lt hfuel)]
      cases fuel with
      | zero => rfl
      | succ n => rw [lexInto, lexInto, List.dropWhile_cons_of_pos hc]
  | @token c b rest t ts hc hnext hrest _ ih =>
      intro done fuel hfuel
      cases fuel with
      | zero => cases hfuel
      | succ n =>
          have hlength : rest.length < n := hrest.length_le.trans_lt (Nat.lt_of_succ_lt_succ hfuel)
          have hstart : (c :: b).dropWhile isBlank = c :: b :=
            List.dropWhile_cons_of_neg (by rw [hc]; decide)
          rw [lexInto, hstart]
          simp only [hnext]
          rw [ih (t :: done) n hlength, List.reverse_cons, List.append_assoc, List.singleton_append]

theorem lex_of_lexed {b : Bytes} {ts : List JsonToken} (h : Lexed b ts) : lex b = some ts :=
  lexInto_of_lexed h [] (b.length + 1) (Nat.lt_succ_self _)

theorem Lexed.mark {c : UInt8} {t : JsonToken} {rest : Bytes} {ts : List JsonToken}
    (h : Lexed rest ts) (hc : isBlank c = false) (hnext : next? (c :: rest) = some (t, rest)) :
    Lexed (c :: rest) (t :: ts) :=
  .token hc hnext (List.suffix_refl _) h

theorem Lexed.blanks {bs rest : Bytes} {ts : List JsonToken} (hbs : bs.all isBlank = true)
    (h : Lexed rest ts) : Lexed (bs ++ rest) ts := by
  induction bs with
  | nil => exact h
  | cons b bs ih =>
      rw [List.all_cons, Bool.and_eq_true] at hbs
      exact .blank hbs.1 (ih hbs.2)

/-- A text that is read as some tokens, whatever comes after it that does not go on with a
number. -/
def Spells (text : Bytes) (ts : List JsonToken) : Prop :=
  ∀ (rest : Bytes) (us : List JsonToken), EndsNumber rest → Lexed rest us →
    Lexed (text ++ rest) (ts ++ us)

theorem Spells.lex {text : Bytes} {ts : List JsonToken} (h : Spells text ts) :
    lex text = some ts := by
  have hwhole := h [] [] nofun .done
  rw [List.append_nil, List.append_nil] at hwhole
  exact lex_of_lexed hwhole

/-! ## Scalars -/

theorem isBlank_of_isDigit {b : UInt8} (h : JsonValue.isDigit b = true) : isBlank b = false := by
  simp only [isBlank, Bool.or_eq_false_iff, beq_eq_false_iff_ne]
  refine ⟨⟨⟨?_, ?_⟩, ?_⟩, ?_⟩
  all_goals
    rintro rfl
    revert h
    decide

theorem spells_numeral (n : Nat) : Spells (digitBytes n) [.scalar (.number (digitBytes n))] := by
  intro rest us hrest h
  have hnext := next?_digitBytes n hrest
  cases hds : digitBytes n with
  | nil => exact absurd hds (digitBytes_ne_nil n)
  | cons b ds =>
      have hdigit : JsonValue.isDigit b = true :=
        isDigit_of_mem_digitBytes (n := n) (hds ▸ List.mem_cons_self)
      rw [hds] at hnext
      exact .token (isBlank_of_isDigit hdigit) hnext (List.suffix_append ds rest) h

theorem spells_quoted (text : String) : Spells (quoted (escape text)) [.string (escape text)] := by
  intro rest us _ h
  have hbody := stringBody_escape text rest
  have hnext : next? (0x22 :: (escape text ++ [quote] ++ rest)) =
      some (.string (escape text), rest) := by
    rw [List.append_assoc, List.singleton_append, next?, hbody]
    rfl
  exact .token rfl hnext (List.suffix_append (escape text ++ [quote]) rest) h

theorem spells_null : Spells (Bytes.ofText "null") [.scalar .null] := by
  intro rest us _ h
  have htext : Bytes.ofText "null" = [0x6e, 0x75, 0x6c, 0x6c] := by decide +kernel
  rw [htext]
  exact .token rfl rfl (List.suffix_append [0x75, 0x6c, 0x6c] rest) h

theorem spells_bool (b : Bool) : Spells (literalBytes b) [.scalar (.bool b)] := by
  intro rest us _ h
  cases b with
  | false =>
      have htext : literalBytes false = [0x66, 0x61, 0x6c, 0x73, 0x65] := by decide +kernel
      rw [htext]
      exact .token rfl rfl (List.suffix_append [0x61, 0x6c, 0x73, 0x65] rest) h
  | true =>
      have htext : literalBytes true = [0x74, 0x72, 0x75, 0x65] := by decide +kernel
      rw [htext]
      exact .token rfl rfl (List.suffix_append [0x72, 0x75, 0x65] rest) h

/-! ## Arrays and objects -/

namespace JsonValue

mutual

def tokens : JsonValue → List JsonToken
  | .null => [.scalar .null]
  | .bool b => [.scalar (.bool b)]
  | .number literal => [.scalar (.number literal)]
  | .string raw => [.string raw]
  | .array items => .openArray :: tokensOfItems items ++ [.closeArray]
  | .object fields => .openObject :: tokensOfFields fields ++ [.closeObject]

def tokensOfItems : List JsonValue → List JsonToken
  | [] => []
  | [v] => tokens v
  | v :: vs => tokens v ++ .comma :: tokensOfItems vs

def tokensOfFields : List (Bytes × JsonValue) → List JsonToken
  | [] => []
  | [(k, v)] => .string k :: .colon :: tokens v
  | (k, v) :: fs => .string k :: .colon :: tokens v ++ .comma :: tokensOfFields fs

end

/-- Values as the writer makes them: numbers are naturals and strings are escaped texts. -/
inductive Written : JsonValue → Prop
  | null : Written .null
  | bool (b : Bool) : Written (.bool b)
  | nat (n : Nat) : Written (ofNat n)
  | text (s : String) : Written (ofText s)
  | array {items : List JsonValue} (h : ∀ v ∈ items, Written v) : Written (.array items)
  | object {fields : List (String × JsonValue)} (h : ∀ f ∈ fields, Written f.2) :
      Written (ofFields fields)

end JsonValue

/-- Pieces with commas between them are read one after the other. -/
theorem spells_intercalate {β : Type} {text : β → Bytes} {toks : β → List JsonToken}
    {blanks : Bytes} (hblanks : blanks.all isBlank = true) (l : List β)
    (h : ∀ b ∈ l, Spells (text b) (toks b)) :
    Spells ((0x2c :: blanks).intercalate (l.map text)) ([.comma].intercalate (l.map toks)) := by
  induction l with
  | nil => exact fun _ _ _ h => h
  | cons b l ih =>
      obtain ⟨hb, hl⟩ := List.forall_mem_cons.mp h
      cases l with
      | nil =>
          simpa only [List.map_cons, List.map_nil, List.intercalate_singleton] using hb
      | cons c l =>
          intro rest us hrest hlexed
          have hnext := (ih hl rest us hrest hlexed).blanks hblanks
          have hcomma := hnext.mark (c := 0x2c) rfl rfl
          have hfirst := hb _ _ (by simp [EndsNumber]; decide) hcomma
          simp only [List.map_cons, List.intercalate_cons_cons] at hfirst ⊢
          simpa using hfirst

theorem all_isBlank_nil : ([] : Bytes).all isBlank = true := rfl

/-- A number ends at a blank. -/
theorem endsNumber_blanks {bs rest : Bytes} (hbs : bs.all isBlank = true)
    (hrest : EndsNumber rest) : EndsNumber (bs ++ rest) := by
  cases bs with
  | nil => exact hrest
  | cons b bs =>
      rw [List.all_cons, Bool.and_eq_true] at hbs
      intro c hc
      obtain rfl : b = c := Option.some.inj hc
      have hblank := hbs.1
      refine ⟨?_, ?_, ?_, ?_⟩
      · by_contra hdigit
        rw [isBlank_of_isDigit (Bool.not_eq_false _ ▸ hdigit)] at hblank
        cases hblank
      all_goals
        rintro rfl
        revert hblank
        decide

section Brackets

variable {inner before after : Bytes} {ts : List JsonToken} (hbefore : before.all isBlank = true)
  (hafter : after.all isBlank = true) (h : Spells inner ts)

include hbefore hafter h

theorem spells_array :
    Spells (0x5b :: before ++ inner ++ after ++ [0x5d]) (.openArray :: ts ++ [.closeArray]) := by
  intro rest us _ hlexed
  have hclose := (hlexed.mark (c := 0x5d) rfl rfl).blanks hafter
  have hinner := h _ _ (endsNumber_blanks hafter (by simp [EndsNumber]; decide)) hclose
  simpa using (hinner.blanks hbefore).mark (c := 0x5b) rfl rfl

theorem spells_object :
    Spells (0x7b :: before ++ inner ++ after ++ [0x7d]) (.openObject :: ts ++ [.closeObject]) := by
  intro rest us _ hlexed
  have hclose := (hlexed.mark (c := 0x7d) rfl rfl).blanks hafter
  have hinner := h _ _ (endsNumber_blanks hafter (by simp [EndsNumber]; decide)) hclose
  simpa using (hinner.blanks hbefore).mark (c := 0x7b) rfl rfl

end Brackets

theorem spells_nil : Spells [] [] := fun _ _ _ h => h

/-- A field of an object, with blanks before its value. -/
theorem spells_field (name : String) {blanks text : Bytes} {ts : List JsonToken}
    (hblanks : blanks.all isBlank = true) (h : Spells text ts) :
    Spells (quoted (escape name) ++ 0x3a :: blanks ++ text)
      (.string (escape name) :: .colon :: ts) := by
  intro rest us hrest hlexed
  have hcolon := ((h rest us hrest hlexed).blanks hblanks).mark (c := 0x3a) rfl rfl
  have hname := spells_quoted name _ _ (by simp [EndsNumber]; decide) hcolon
  simpa using hname

/-! ## Written values -/

/-- A list that is written piece by piece, with a separator before every piece but the first. -/
theorem eq_intercalate {β γ : Type} {separator : List γ} {piece : β → List γ}
    {joined : List β → List γ} (hnil : joined [] = []) (hone : ∀ b, joined [b] = piece b)
    (hmore : ∀ b c l, joined (b :: c :: l) = piece b ++ separator ++ joined (c :: l))
    (l : List β) : joined l = separator.intercalate (l.map piece) := by
  induction l with
  | nil => exact hnil
  | cons b l ih =>
      cases l with
      | nil => rw [hone, List.map_singleton, List.intercalate_singleton]
      | cons c l =>
          simp only [hmore, ih, List.map_cons, List.intercalate_cons_cons]

theorem tokensOfItems_cons_cons (v w : JsonValue) (vs : List JsonValue) :
    tokensOfItems (v :: w :: vs) = tokens v ++ .comma :: tokensOfItems (w :: vs) := rfl

theorem tokensOfItems_eq (items : List JsonValue) :
    tokensOfItems items = [.comma].intercalate (items.map tokens) :=
  eq_intercalate rfl (fun _ => rfl) (fun _ _ _ => by simp [tokensOfItems]) items

theorem tokensOfFields_cons_cons (f g : Bytes × JsonValue) (fs : List (Bytes × JsonValue)) :
    tokensOfFields (f :: g :: fs) =
      .string f.1 :: .colon :: tokens f.2 ++ .comma :: tokensOfFields (g :: fs) := rfl

theorem tokensOfFields_eq (fields : List (Bytes × JsonValue)) :
    tokensOfFields fields =
      [.comma].intercalate (fields.map fun f => .string f.1 :: .colon :: f.2.tokens) :=
  eq_intercalate rfl (fun _ => rfl) (fun _ _ _ => by simp [tokensOfFields]) fields

theorem compactItems_eq (items : List JsonValue) :
    compactItems items = [0x2c].intercalate (items.map compact) :=
  eq_intercalate rfl (fun _ => rfl) (fun _ _ _ => by simp [compactItems]) items

theorem compactFields_eq (fields : List (Bytes × JsonValue)) :
    compactFields fields =
      [0x2c].intercalate (fields.map fun f => quoted f.1 ++ 0x3a :: compact f.2) :=
  eq_intercalate rfl (fun _ => rfl) (fun _ _ _ => by simp [compactFields]) fields

theorem prettyItems_eq (level : Nat) (items : List JsonValue) :
    prettyItems level items = (0x2c :: newLine level).intercalate (items.map (prettyAt level)) :=
  eq_intercalate rfl (fun _ => rfl) (fun _ _ _ => by simp [prettyItems]) items

theorem prettyFields_eq (level : Nat) (fields : List (Bytes × JsonValue)) :
    prettyFields level fields = (0x2c :: newLine level).intercalate
      (fields.map fun f => quoted f.1 ++ 0x3a :: 0x20 :: prettyAt level f.2) :=
  eq_intercalate rfl (fun _ => rfl) (fun _ _ _ => by simp [prettyFields]) fields

theorem all_isBlank_space : ([0x20] : Bytes).all isBlank = true := rfl

theorem all_isBlank_newLine (level : Nat) : (newLine level).all isBlank = true := by
  rw [newLine, List.all_cons, List.all_replicate]
  simp [isBlank]

theorem spells_compact {v : JsonValue} (h : Written v) : Spells (compact v) v.tokens := by
  induction h with
  | null => exact spells_null
  | bool b => exact spells_bool b
  | nat n => exact spells_numeral n
  | text s => exact spells_quoted s
  | @array items _ ih =>
      have hitems := spells_intercalate all_isBlank_nil items ih
      rw [← compactItems_eq, ← tokensOfItems_eq] at hitems
      simpa [compact, tokens] using spells_array all_isBlank_nil all_isBlank_nil hitems
  | @object fields _ ih =>
      have hfields := spells_intercalate all_isBlank_nil fields
        fun f hf => spells_field f.1 all_isBlank_nil (ih f hf)
      have hobject := spells_object all_isBlank_nil all_isBlank_nil hfields
      simpa [compact, tokens, ofFields, compactFields_eq, tokensOfFields_eq, Function.comp_def]
        using hobject

theorem spells_prettyAt {v : JsonValue} (h : Written v) :
    ∀ level, Spells (prettyAt level v) v.tokens := by
  induction h with
  | null => exact fun _ => spells_null
  | bool b => exact fun _ => spells_bool b
  | nat n => exact fun _ => spells_numeral n
  | text s => exact fun _ => spells_quoted s
  | @array items _ ih =>
      intro level
      cases items with
      | nil => exact spells_array all_isBlank_nil all_isBlank_nil spells_nil
      | cons v items =>
          have hitems := spells_intercalate (all_isBlank_newLine (level + 1)) (v :: items)
            fun w hw => ih w hw (level + 1)
          rw [← prettyItems_eq, ← tokensOfItems_eq] at hitems
          exact spells_array (all_isBlank_newLine (level + 1)) (all_isBlank_newLine level) hitems
  | @object fields _ ih =>
      intro level
      cases fields with
      | nil => exact spells_object all_isBlank_nil all_isBlank_nil spells_nil
      | cons f fields =>
          have hfields := spells_intercalate (all_isBlank_newLine (level + 1)) (f :: fields)
            fun g hg => spells_field g.1 all_isBlank_space (ih g hg (level + 1))
          have hobject := spells_object (all_isBlank_newLine (level + 1))
            (all_isBlank_newLine level) hfields
          simpa [prettyAt, tokens, ofFields, prettyFields_eq, tokensOfFields_eq,
            Function.comp_def] using hobject

/-- A value that is written in one line has its tokens. -/
theorem lex_compact {v : JsonValue} (h : Written v) : lex (compact v) = some v.tokens :=
  (spells_compact h).lex

/-- A value that is written in many lines has the same tokens. -/
theorem lex_pretty {v : JsonValue} (h : Written v) : lex (pretty v) = some v.tokens :=
  (spells_prettyAt h 0).lex

end PathForecast
