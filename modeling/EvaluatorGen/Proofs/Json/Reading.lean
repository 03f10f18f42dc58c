import EvaluatorGen.Json.Decoder
import EvaluatorGen.Json.Reader
import EvaluatorGen.Json.Writer
import Mathlib.Data.List.Forall2

/-!
Trees of complete tokens.

1. `Stack.document_append`: tokens that can stand where they do are taken one after another, so a
   document is read part by part.
2. `supplies_array` and `supplies_object`: if some tokens each give a value, then with brackets around
   them and commas between them they give the array, and behind keys the object.
3. `document_of_supplies`: the tokens of a value are read as that value, and nothing is left.
4. `asList_map`: an array of values that are each decoded is decoded as their list.
-/
namespace EvaluatorGen.Json

theorem exists_separated_cons (close : Token) (part : List Token) (parts : List (List Token)) :
    ∃ rest, separated close (part :: parts) = part ++ rest := by
  cases parts with
  | nil => exact ⟨[close], rfl⟩
  | cons => exact ⟨_, rfl⟩

/-- The tokens of an array of numbers behind its bracket. -/
def tokensOfItems (items : List Value) : List Token :=
  separated .closeArray (items.map fun v => [.scalar v])

/-- The tokens of a key and an array of numbers. -/
def tokensOfMember (m : String × List Value) : List Token :=
  .text (some m.1) :: .colon :: .openArray :: tokensOfItems m.2

/-- The tokens of an object of arrays behind its brace. -/
def tokensOfMembers (members : List (String × List Value)) : List Token :=
  separated .closeObject (members.map tokensOfMember)

/-- The member that a key and an array make. -/
def memberOf (m : String × List Value) : Option String × Value := (some m.1, .array m.2)

namespace Stack

variable {s s' : Stack} {p : Pending} {ps : List Pending}

/-- The stack after some tokens, if all of them can stand where they do. -/
def acceptAll (s : Stack) (ts : List Token) : Option Stack := ts.foldlM accept? s

theorem acceptAll_singleton (s : Stack) (t : Token) : s.acceptAll [t] = s.accept? t := by
  rw [acceptAll, List.foldlM_cons]
  exact bind_pure _

theorem acceptAll_cons {t : Token} (h : s.accept? t = some s') (ts : List Token) :
    s.acceptAll (t :: ts) = s'.acceptAll ts := by
  rw [acceptAll, List.foldlM_cons, h]
  rfl

theorem push_eq (hs : s.awaitsValue) (p : Pending) : s.push p = some ⟨p, s.top :: s.rest⟩ :=
  if_pos hs

theorem acceptAll_append {ts : List Token} (h : s.acceptAll ts = some s') (us : List Token) :
    s.acceptAll (ts ++ us) = s'.acceptAll us := by
  rw [acceptAll, List.foldlM_append, ← acceptAll, h]
  rfl

theorem document_append {ts : List Token} (h : s.acceptAll ts = some s') (us : List Token) :
    s.document (ts ++ us) = s'.document us := by
  induction ts generalizing s with
  | nil =>
    cases h
    rfl
  | cons t ts ih =>
    rw [acceptAll, List.foldlM_cons] at h
    obtain ⟨r, hr, hts⟩ := Option.bind_eq_some_iff.mp h
    rw [List.cons_append, document, hr]
    exact ih hts

end Stack

/-! ### Tokens that give a value -/

/-- Wherever a value may start, the tokens give it. -/
def Supplies (ts : List Token) (v : Value) : Prop :=
  ∀ s : Stack, s.awaitsValue → s.acceptAll ts = s.supply v

theorem supplies_scalar (v : Value) : Supplies [.scalar v] v := fun s _ =>
  s.acceptAll_singleton (.scalar v)

theorem supplies_text (s : String) : Supplies [.text (some s)] (.string s) := by
  rintro ⟨top, rest⟩ hs
  rw [Stack.acceptAll_singleton]
  cases top with
  | firstKey | nextKey => cases hs
  | _ => rfl

section

variable {part : List Token} {parts : List (List Token)} {v : Value} {vs : List Value}
  {p : Pending} {ps : List Pending}

/-- The items of an array that come behind a comma. -/
theorem acceptAll_nextItem (h : Supplies part v) (hs : List.Forall₂ Supplies parts vs)
    (items : List Value) :
    Stack.acceptAll ⟨.nextItem items, p :: ps⟩ (separated .closeArray (part :: parts)) =
      Stack.supply (.array (items.reverse ++ v :: vs)) ⟨p, ps⟩ := by
  induction hs generalizing items part v with
  | nil =>
    rw [separated, Stack.acceptAll_append (h _ rfl), ← List.reverse_cons]
    exact Stack.acceptAll_singleton ⟨.afterItem (v :: items), p :: ps⟩ .closeArray
  | @cons part' w parts vs h' _ ih =>
    rw [separated, Stack.acceptAll_append (h _ rfl)]
    · show Stack.acceptAll ⟨.nextItem (v :: items), p :: ps⟩ _ = _
      rw [ih h', List.reverse_cons, List.append_assoc]
      rfl
    · exact List.cons_ne_nil _ _

theorem supplies_array (h : List.Forall₂ Supplies parts vs) :
    Supplies (.openArray :: separated .closeArray parts) (.array vs) := by
  rintro ⟨p, ps⟩ hs
  rw [Stack.acceptAll_cons (t := .openArray) (Stack.push_eq hs .firstItem)]
  cases h with
  | nil => exact Stack.acceptAll_singleton ⟨.firstItem, p :: ps⟩ .closeArray
  | @cons part v parts vs h hs =>
    -- The first item is taken as it would be behind a comma.
    have hfirst : Stack.acceptAll ⟨.firstItem, p :: ps⟩ (separated .closeArray (part :: parts)) =
        Stack.acceptAll ⟨.nextItem [], p :: ps⟩ (separated .closeArray (part :: parts)) := by
      obtain ⟨rest, hrest⟩ := exists_separated_cons .closeArray part parts
      rw [hrest, Stack.acceptAll_append (h _ rfl), Stack.acceptAll_append (h _ rfl)]
    rw [hfirst, acceptAll_nextItem h hs]
    rfl

end

/-- The tokens of a member give its value behind its key. -/
def SuppliesMember (ts : List Token) (m : Option String × Value) : Prop :=
  ∃ part, ts = .text m.1 :: .colon :: part ∧ Supplies part m.2

section

variable {part : List Token} {parts : List (List Token)} {m : Option String × Value}
  {ms members : Members} {p : Pending} {ps : List Pending}

theorem SuppliesMember.acceptAll (h : SuppliesMember part m) (members : Members) :
    Stack.acceptAll ⟨.nextKey members, ps⟩ part = some ⟨.afterMember (m :: members), ps⟩ := by
  obtain ⟨part, rfl, h⟩ := h
  exact h ⟨.member members m.1, ps⟩ rfl

/-- The members of an object that come behind a comma. -/
theorem acceptAll_nextKey (h : SuppliesMember part m) (hs : List.Forall₂ SuppliesMember parts ms)
    (members : Members) :
    Stack.acceptAll ⟨.nextKey members, p :: ps⟩ (separated .closeObject (part :: parts)) =
      Stack.supply (.object (members.reverse ++ m :: ms)) ⟨p, ps⟩ := by
  induction hs generalizing members part m with
  | nil =>
    rw [separated, Stack.acceptAll_append (h.acceptAll members), ← List.reverse_cons]
    exact Stack.acceptAll_singleton ⟨.afterMember (m :: members), p :: ps⟩ .closeObject
  | @cons part' n parts ms h' _ ih =>
    rw [separated, Stack.acceptAll_append (h.acceptAll members)]
    · show Stack.acceptAll ⟨.nextKey (m :: members), p :: ps⟩ _ = _
      rw [ih h', List.reverse_cons, List.append_assoc]
      rfl
    · exact List.cons_ne_nil _ _

theorem supplies_object (h : List.Forall₂ SuppliesMember parts ms) :
    Supplies (.openObject :: separated .closeObject parts) (.object ms) := by
  rintro ⟨p, ps⟩ hs
  rw [Stack.acceptAll_cons (t := .openObject) (Stack.push_eq hs .firstKey)]
  cases h with
  | nil => exact Stack.acceptAll_singleton ⟨.firstKey, p :: ps⟩ .closeObject
  | @cons part m parts ms h hs =>
    have hfirst : Stack.acceptAll ⟨.firstKey, p :: ps⟩ (separated .closeObject (part :: parts)) =
        Stack.acceptAll ⟨.nextKey [], p :: ps⟩ (separated .closeObject (part :: parts)) := by
      obtain ⟨rest, hrest⟩ := exists_separated_cons .closeObject part parts
      obtain ⟨part, rfl, -⟩ := h
      rw [hrest]
      rfl
    rw [hfirst, acceptAll_nextKey h hs]
    rfl

end

theorem document_of_supplies {ts : List Token} {v : Value} (h : Supplies ts v) :
    Stack.document {} ts = { value := v } := by
  have hdoc := Stack.document_append (h {} rfl) []
  rwa [List.append_nil] at hdoc

theorem asList_map {α β : Type} {item : Value → Except Fault β} {toJson : α → Value} {f : α → β}
    {xs : List α} (h : ∀ x ∈ xs, item (toJson x) = .ok (f x)) :
    (Value.array (xs.map toJson)).asList item = .ok (xs.map f) := by
  show (xs.map toJson).mapM item = _
  induction xs with
  | nil => rfl
  | cons x xs ih =>
    rw [List.forall_mem_cons] at h
    rw [List.map_cons, List.mapM_cons, h.1, ih h.2]
    rfl

/-! ### An object of arrays of numbers -/

theorem supplies_items (items : List Value) :
    Supplies (.openArray :: tokensOfItems items) (.array items) := by
  refine supplies_array (List.forall₂_map_left_iff.mpr ?_)
  exact List.forall₂_same.mpr fun v _ => supplies_scalar v

theorem document_tokensOfMembers (members : List (String × List Value)) :
    Stack.document {} (.openObject :: tokensOfMembers members) =
      { value := .object (members.map memberOf) } := by
  refine document_of_supplies (supplies_object ?_)
  rw [List.forall₂_map_left_iff, List.forall₂_map_right_iff]
  exact List.forall₂_same.mpr fun m _ => ⟨_, rfl, supplies_items m.2⟩

end EvaluatorGen.Json
