import EvaluatorGen.Graph.Basic

/-!
Weight stores: the values of the leaves of a graph, by uid.

Entries stand in increasing order of their uids, so two stores with the same entries are
equal. `String` is ordered by code points, which is the order of the bytes of UTF-8.
-/
namespace EvaluatorGen

inductive WeightError where
  | lengthMismatch (uid : String) (expected found : Nat)
  | nonFinite (uid : String) (index : Nat)
  | missing (uid : String)
  /-- The writer has no room left. -/
  | noRoom
  | overflow (o : Overflow)
  deriving DecidableEq, Repr

def WeightError.message : WeightError → String
  | .lengthMismatch uid expected found =>
    "leaf '" ++ uid ++ "': expected " ++ expected.repr ++ " values, found " ++ found.repr
  | .nonFinite uid index =>
    "leaf '" ++ uid ++ "': value at index " ++ index.repr ++ " is not finite"
  | .missing uid => "leaf '" ++ uid ++ "': no values in weight store"
  | .noRoom => "weight store I/O: failed to write whole buffer"
  | .overflow o => o.message

/-- The values of one leaf. -/
structure WeightEntry where
  uid : String
  values : List Binary64
  deriving DecidableEq, Repr

namespace WeightEntry

/-- The entries with one more, which replaces the entry of the same uid. -/
def insert (new : WeightEntry) : List WeightEntry → List WeightEntry
  | [] => [new]
  | e :: es =>
    if new.uid < e.uid then new :: e :: es
    else if new.uid = e.uid then new :: es
    else e :: insert new es

theorem mem_insert {new x : WeightEntry} {es : List WeightEntry} (h : x ∈ insert new es) :
    x = new ∨ x ∈ es := by
  induction es with
  | nil => simpa [insert] using h
  | cons e es ih =>
    simp only [insert] at h
    split at h
    · simpa using h
    · split at h
      · rcases List.mem_cons.1 h with h | h
        · exact .inl h
        · exact .inr (List.mem_cons_of_mem _ h)
      · rcases List.mem_cons.1 h with h | h
        · exact .inr (h ▸ List.mem_cons_self)
        · exact (ih h).imp_right (List.mem_cons_of_mem _)

/-- In increasing order of the uids, none of them twice. -/
abbrev Sorted (es : List WeightEntry) : Prop :=
  es.Pairwise fun a b => a.uid < b.uid

theorem Sorted.insert {new : WeightEntry} {es : List WeightEntry} (h : Sorted es) :
    Sorted (WeightEntry.insert new es) := by
  induction es with
  | nil => exact List.pairwise_singleton _ _
  | cons e es ih =>
    obtain ⟨he, hes⟩ := List.pairwise_cons.1 h
    simp only [WeightEntry.insert]
    split
    · next hlt =>
      refine List.pairwise_cons.2 ⟨fun x hx => ?_, h⟩
      rcases List.mem_cons.1 hx with rfl | hx
      · exact hlt
      · exact String.lt_trans hlt (he x hx)
    · next hlt =>
      split
      · next heq => exact List.pairwise_cons.2 ⟨fun x hx => heq ▸ he x hx, hes⟩
      · next hne =>
        refine List.pairwise_cons.2 ⟨fun x hx => ?_, ih hes⟩
        rcases mem_insert hx with rfl | hx
        · refine Decidable.byContradiction fun hle => hne ?_
          exact String.le_antisymm (String.not_lt.1 hle) (String.not_lt.1 hlt)
        · exact he x hx

end WeightEntry

structure Weights where
  entries : List WeightEntry := []
  sorted : WeightEntry.Sorted entries := by exact .nil
  deriving DecidableEq, Repr

namespace Weights

/-- The store without entries. -/
def empty : Weights := {}

instance : Inhabited Weights := ⟨empty⟩

/-- The store with the values of a uid, in place of those it had. -/
def insert (w : Weights) (uid : String) (values : List Binary64) : Weights :=
  ⟨WeightEntry.insert ⟨uid, values⟩ w.entries, w.sorted.insert⟩

def get? (w : Weights) (uid : String) : Option (List Binary64) :=
  (w.entries.find? (·.uid == uid)).map (·.values)

def size (w : Weights) : Nat := w.entries.length

def isEmpty (w : Weights) : Bool := w.entries.isEmpty

/-- Equal keys, and values that are equal as numbers. -/
def equals (a b : Weights) : Bool :=
  a.entries.map (·.uid) == b.entries.map (·.uid) &&
    (a.entries.zip b.entries).all fun (x, y) =>
      x.values.length == y.values.length && (x.values.zip y.values).all fun (u, v) => u.equals v

/-! ### Stores and graphs -/

/-- As many values as the leaf's shape has elements. -/
def checkLength (n : Node) (values : List Binary64) : Except WeightError Unit := do
  let expected ← n.elementCount.mapError .overflow
  if values.length = expected.toNat then return ()
  else .error (.lengthMismatch n.uid expected.toNat values.length)

/-- The store with the values of one leaf, if it carries any. -/
def addLeaf (w : Weights) (n : Node) : Except WeightError Weights := do
  match n.value with
  | none => return w
  | some values =>
    checkLength n values
    return w.insert n.uid values

/-- The values that the leaves of a graph carry. -/
def ofGraph (g : Graph) : Except WeightError Weights :=
  g.leaves.foldlM addLeaf empty

/-- The store has values of the right number for a leaf. -/
def checkLeaf (w : Weights) (n : Node) : Except WeightError Unit :=
  match w.get? n.uid with
  | none => .error (.missing n.uid)
  | some values => checkLength n values

/-- The store has values of the right number for every leaf of a graph. -/
def validate (w : Weights) (g : Graph) : Except WeightError Unit :=
  g.leaves.forM w.checkLeaf

end Weights

end EvaluatorGen
