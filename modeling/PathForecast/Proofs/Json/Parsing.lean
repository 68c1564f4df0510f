import PathForecast.Json.Reader
import PathForecast.Proofs.Json.Lexing

/-!
# Written values are read back

The machine that puts values together hands a value on once it has read its tokens, whatever is
open around it (`run_tokens`). With that, written text is read as the value that it was written
from. Main statements: `parse?_compact` and `parse?_pretty`.
-/

set_option autoImplicit false

namespace PathForecast

open JsonValue

namespace JsonState

theorem run_cons {s s' : JsonState} {t : JsonToken} (h : s.step t = some s')
    (ts : List JsonToken) : s.run (t :: ts) = s'.run ts := by
  rw [run, List.foldlM_cons, h]
  rfl

/-- The tokens of a value make the value and nothing else. -/
def Makes (v : JsonValue) : Prop :=
  ∀ (stack : List JsonFrame) (ts : List JsonToken),
    (value stack).run (v.tokens ++ ts) = (deliver v stack).run ts

/-! ## Arrays -/

/-- Items with commas between them make the rest of an array. -/
theorem run_items (items : List JsonValue) (stack : List JsonFrame) (ts : List JsonToken) :
    ∀ (v : JsonValue) (done : List JsonValue), (∀ w ∈ v :: items, Makes w) →
      (value (.items done :: stack)).run (tokensOfItems (v :: items) ++ .closeArray :: ts) =
        (deliver (.array (done.reverse ++ v :: items)) stack).run ts := by
  induction items with
  | nil =>
      intro v done h
      have hclose : (deliver v (.items done :: stack)).step .closeArray =
          some (deliver (.array (v :: done).reverse) stack) := rfl
      rw [tokensOfItems, h v List.mem_cons_self, run_cons hclose, List.reverse_cons]
  | cons w items ih =>
      intro v done h
      obtain ⟨hv, hitems⟩ := List.forall_mem_cons.mp h
      have hcomma : (deliver v (.items done :: stack)).step .comma =
          some (value (.items (v :: done) :: stack)) := rfl
      rw [tokensOfItems_cons_cons, List.append_assoc, hv, List.cons_append, run_cons hcomma,
        ih w (v :: done) hitems, List.reverse_cons, List.append_assoc, List.singleton_append]

theorem makes_array {items : List JsonValue} (hwritten : ∀ v ∈ items, Written v)
    (h : ∀ v ∈ items, Makes v) : Makes (.array items) := by
  intro stack ts
  have hopen : (value stack).step .openArray = some (firstItem stack) := rfl
  rw [tokens, List.cons_append, List.cons_append, run_cons hopen, List.append_assoc,
    List.singleton_append]
  cases items with
  | nil => exact run_cons rfl ts
  | cons v items =>
      -- what begins a value begins the first item of an array
      have hfirst : ∀ us, (firstItem stack).run (v.tokens ++ us) =
          (value (.items [] :: stack)).run (v.tokens ++ us) := by
        intro us
        cases hwritten v List.mem_cons_self <;> rfl
      have hrest := run_items items stack ts v [] h
      cases items with
      | nil =>
          rw [tokensOfItems] at hrest ⊢
          rw [hfirst]
          exact hrest
      | cons w items =>
          rw [tokensOfItems_cons_cons, List.append_assoc] at hrest ⊢
          rw [hfirst]
          exact hrest

/-! ## Objects -/

/-- Fields with commas between them make the rest of an object. -/
theorem run_fields (fields : List (Bytes × JsonValue)) (stack : List JsonFrame)
    (ts : List JsonToken) :
    ∀ (f : Bytes × JsonValue) (done : List (Bytes × JsonValue)), (∀ g ∈ f :: fields, Makes g.2) →
      (key done stack).run (tokensOfFields (f :: fields) ++ .closeObject :: ts) =
        (deliver (.object (done.reverse ++ f :: fields)) stack).run ts := by
  have hkey : ∀ (k : Bytes) (done : List (Bytes × JsonValue)) (us : List JsonToken),
      (key done stack).run (.string k :: .colon :: us) =
        (value (.fields done k :: stack)).run us :=
    fun _ _ _ => rfl
  induction fields with
  | nil =>
      rintro ⟨k, v⟩ done h
      have hclose : (deliver v (.fields done k :: stack)).step .closeObject =
          some (deliver (.object ((k, v) :: done).reverse) stack) := rfl
      rw [tokensOfFields, List.cons_append, List.cons_append, hkey, h (k, v) List.mem_cons_self,
        run_cons hclose, List.reverse_cons]
  | cons g fields ih =>
      rintro ⟨k, v⟩ done h
      obtain ⟨hv, hfields⟩ := List.forall_mem_cons.mp h
      have hcomma : (deliver v (.fields done k :: stack)).step .comma =
          some (key ((k, v) :: done) stack) := rfl
      rw [tokensOfFields_cons_cons, List.append_assoc, List.cons_append, List.cons_append, hkey, hv,
        List.cons_append, run_cons hcomma, ih g ((k, v) :: done) hfields, List.reverse_cons,
        List.append_assoc, List.singleton_append]

theorem makes_object {fields : List (Bytes × JsonValue)} (h : ∀ f ∈ fields, Makes f.2) :
    Makes (.object fields) := by
  intro stack ts
  have hopen : (value stack).step .openObject = some (firstKey stack) := rfl
  rw [tokens, List.cons_append, List.cons_append, run_cons hopen, List.append_assoc,
    List.singleton_append]
  cases fields with
  | nil => exact run_cons rfl ts
  | cons f fields =>
      rw [← List.nil_append (f :: fields), ← List.reverse_nil, ← run_fields fields stack ts f [] h]
      -- the first key may stand without a comma before it
      cases fields <;> rfl

/-! ## Values -/

theorem run_tokens {v : JsonValue} (h : Written v) : Makes v := by
  induction h with
  | null => exact fun _ _ => rfl
  | bool b => exact fun _ _ => rfl
  | nat n => exact fun _ _ => rfl
  | text s => exact fun _ _ => rfl
  | array hitems ih => exact makes_array hitems ih
  | object _ ih =>
      refine makes_object fun f hf => ?_
      obtain ⟨g, hg, rfl⟩ := List.mem_map.mp hf
      exact ih g hg

end JsonState

namespace JsonValue

theorem ofTokens?_tokens {v : JsonValue} (h : Written v) : ofTokens? v.tokens = some v := by
  have hrun := JsonState.run_tokens h [] []
  rw [List.append_nil] at hrun
  rw [ofTokens?, hrun]
  rfl

/-- What is written in one line is read back. -/
theorem parse?_compact {v : JsonValue} (h : Written v) : parse? (compact v) = some v := by
  rw [parse?, lex_compact h, Option.bind_some, ofTokens?_tokens h]

/-- What is written in many lines is read back. -/
theorem parse?_pretty {v : JsonValue} (h : Written v) : parse? (pretty v) = some v := by
  rw [parse?, lex_pretty h, Option.bind_some, ofTokens?_tokens h]

end JsonValue

end PathForecast
