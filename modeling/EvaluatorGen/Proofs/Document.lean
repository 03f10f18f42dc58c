import EvaluatorGen.Graph.Document
import EvaluatorGen.Proofs.Json.Writing

/-!
Graphs written as JSON and read back.

1. `Node.Fields.Takes`: some members of a node are taken from some fields to others. What is written
   of a node is taken field by field, and an absent field leaves its slot as it is.
2. `Node.ofJson_toJson`: the fields that have been taken at the end make up the node.
3. `Json.Value.Plain.graph`: what is written of a graph without values has whole numbers only, which
   fit in 64 bits, so its text is read as the same tree.
4. `Graph.decode_encode`: both together, for every graph without values, and so for every graph that
   was read, once its values are dropped.
-/
namespace EvaluatorGen

open Json (Value Fault Origin Members)

/-- Members whose keys are texts. -/
def Json.Members.ofList (members : List (String × Value)) : Members :=
  members.map fun m => (some m.1, m.2)

namespace Json.Value

/-! ### Words -/

theorem asUInt64_toNat (x : UInt64) : asUInt64 (.int x.toNat) = .ok x := by
  have hfits : (0 : Int) ≤ x.toNat ∧ (x.toNat : Int) < UInt64.size :=
    ⟨Int.natCast_nonneg _, Int.ofNat_lt.mpr x.toNat_lt_size⟩
  rw [asUInt64, asNatBelow, if_pos hfits, Int.toNat_natCast]
  exact congrArg Except.ok (UInt64.ofNat_toNat)

theorem asUInt32_toNat (x : UInt32) : asUInt32 (.int x.toNat) = .ok x := by
  have hfits : (0 : Int) ≤ x.toNat ∧ (x.toNat : Int) < UInt32.size :=
    ⟨Int.natCast_nonneg _, Int.ofNat_lt.mpr x.toNat_lt_size⟩
  rw [asUInt32, asNatBelow, if_pos hfits, Int.toNat_natCast]
  exact congrArg Except.ok (UInt32.ofNat_toNat)

theorem asInt64_toInt (x : Int64) : asInt64 (.int x.toInt) = .ok x := by
  rw [asInt64, Int64.ofInt_toInt, if_pos rfl]

theorem foldMembers_ofMembers {α : Type} (step : α → String → Value → Except Fault α) (a : α)
    (members : List (String × Value)) :
    foldMembers step a (.ofMembers members) = members.foldlM (fun a m => step a m.1 m.2) a := by
  rw [ofMembers, foldMembers, List.foldlM_map]
  rfl

end Json.Value

theorem Json.once_none {α : Type} {item : Value → Except Fault α} {v : Value} {a : α}
    (h : item v = .ok a) : Json.once none item v = .ok (some a) :=
  congrArg (some <$> ·) h

/-! ### Parts of a node -/

theorem ElementType.ofJson_toText (origin : Origin) (t : ElementType) :
    ElementType.ofJson origin (.string t.toText) = .ok t := by
  cases t <;> rfl

theorem Quantization.ofJson_toJson (origin : Origin) (q : Quantization) :
    Quantization.ofJson origin q.toJson = .ok q := by
  show (do (← q.toJson.foldMembers Fields.take {}).finish) = _
  rw [toJson, Value.foldMembers_ofMembers]
  simp only [List.foldlM_cons, List.foldlM_nil, Fields.take, Json.once, Value.asUInt32_toNat]
  rfl

theorem Attributes.optional_eq {members : Members} {key : String} {x : Option Int64}
    (h : members.field? key = .ok (x.map fun i => .int i.toInt)) :
    members.optional key (Value.asOption Value.asInt64) none = .ok x := by
  rw [Members.optional, h]
  cases x with
  | none => rfl
  | some i => exact congrArg (some <$> ·) (Value.asInt64_toInt i)

theorem Attributes.ofJson_toMembers (a : Attributes) :
    Attributes.ofJson (.ofMembers a.toMembers) = .ok a := by
  obtain ⟨b, e, s⟩ := a
  let members := Members.ofList (toMembers ⟨b, e, s⟩)
  obtain ⟨hb, he, hs⟩ : members.field? "begin_index" = .ok (b.map fun i => .int i.toInt) ∧
      members.field? "end_index" = .ok (e.map fun i => .int i.toInt) ∧
      members.field? "slice_strides" = .ok (s.map fun i => .int i.toInt) := by
    cases b <;> cases e <;> cases s <;> exact ⟨rfl, rfl, rfl⟩
  show ofJson (.object members) = _
  rw [ofJson]
  dsimp only
  rw [optional_eq hb, optional_eq he, optional_eq hs]
  rfl

theorem NodeKind.ofMembers_toMembers (kind : NodeKind) :
    NodeKind.ofMembers (.ofList kind.toMembers) = .ok kind := by
  cases kind with
  | operator name attributes =>
    show (do
      let attributes ← Attributes.ofJson (.ofMembers attributes.toMembers)
      return NodeKind.operator name attributes) = _
    rw [Attributes.ofJson_toMembers]
    rfl
  | _ => rfl

theorem Node.ofJson_wordList (xs : List UInt64) :
    (Node.wordList xs).asList Value.asUInt64 = .ok xs := by
  rw [wordList, Json.asList_map fun x _ => Value.asUInt64_toNat x]
  exact congrArg _ (List.map_id xs)

/-! ### Members of a node -/

namespace Node.Fields

/-- Some members are taken one after another, from some fields to others. -/
def Takes (origin : Origin) (f : Fields) (members : List (String × Value)) (f' : Fields) : Prop :=
  members.foldlM (fun f m => f.take origin m.1 m.2) f = .ok f'

namespace Takes

variable {origin : Origin} {f f' f'' : Fields}

theorem single {key : String} {v : Value} (h : f.take origin key v = .ok f') :
    Takes origin f [(key, v)] f' := by
  rw [Takes, List.foldlM_cons, h]
  rfl

theorem append {ms ms' : List (String × Value)} (h : Takes origin f ms f')
    (h' : Takes origin f' ms' f'') : Takes origin f (ms ++ ms') f'' := by
  rw [Takes, List.foldlM_append, h]
  exact h'

/-- A field that may be absent, by the fields with its slot filled or not. -/
theorem present {α : Type} {key : String} {toJson : α → Value}
    (set : Option (Option α) → Fields) (hnone : set none = f)
    (hsome : ∀ a, f.take origin key (toJson a) = .ok (set (some (some a)))) (x : Option α) :
    Takes origin f (Node.present key toJson x) (set (x.map some)) := by
  cases x with
  | none => exact congrArg Except.ok hnone.symm
  | some a => exact single (hsome a)

end Takes

variable {origin : Origin} {f : Fields}

/-- The keys that belong to the kind of a node. -/
def kindKeys : List String := ["type", "op_name", "attributes"]

theorem takes_name (h : f.name = none) (x : Option String) :
    Takes origin f (present "name" .string x) { f with name := x.map some } := by
  refine .present (fun name => { f with name }) (by rw [← h]) (fun s => ?_) x
  simp only [take, h]
  rfl

theorem takes_shape (h : f.shape = none) (xs : List UInt64) :
    Takes origin f [("shape", wordList xs)] { f with shape := some xs } := by
  apply Takes.single
  simp only [take, h, Json.once_none (ofJson_wordList xs)]
  rfl

theorem takes_elementType (h : f.elementType = none) (t : ElementType) :
    Takes origin f [("dtype", .string t.toText)] { f with elementType := some t } := by
  apply Takes.single
  simp only [take, h, Json.once_none (ElementType.ofJson_toText origin t)]
  rfl

theorem takes_quantization (h : f.quantization = none) (x : Option Quantization) :
    Takes origin f (present "quantized" Quantization.toJson x)
      { f with quantization := x.map some } := by
  refine .present (fun quantization => { f with quantization }) (by rw [← h]) (fun q => ?_) x
  have hq : Value.asOption (Quantization.ofJson origin) q.toJson = .ok (some q) :=
    congrArg (some <$> ·) (Quantization.ofJson_toJson origin q)
  simp only [take, h, Json.once_none hq]
  rfl

theorem takes_recurrenceOffset (h : f.recurrenceOffset = none) (x : Option UInt64) :
    Takes origin f (present "recurrence_offset" (fun x => .int x.toNat) x)
      { f with recurrenceOffset := x.map some } := by
  refine .present (fun recurrenceOffset => { f with recurrenceOffset }) (by rw [← h])
    (fun x => ?_) x
  have hx : Value.asOption Value.asUInt64 (.int x.toNat) = .ok (some x) :=
    congrArg (some <$> ·) (Value.asUInt64_toNat x)
  simp only [take, h, Json.once_none hx]
  rfl

theorem takes_operands (h : f.operands = none) (xs : List UInt64) :
    Takes origin f [("operands", wordList xs)] { f with operands := some xs } := by
  apply Takes.single
  simp only [take, h, Json.once_none (ofJson_wordList xs)]
  rfl

/-- Members that a node does not know itself are kept as they are. -/
theorem takes_others {ms : List (String × Value)} (hkeys : ∀ m ∈ ms, m.1 ∈ kindKeys)
    (hkeep : ∀ m ∈ ms, m.2.keep maxMemberDepth = .ok ()) :
    Takes origin f ms { f with others := f.others ++ .ofList ms } := by
  induction ms generalizing f with
  | nil =>
    have hothers : f.others ++ Members.ofList [] = f.others := List.append_nil _
    rw [hothers]
    rfl
  | cons m ms ih =>
    rw [List.forall_mem_cons] at hkeys hkeep
    obtain ⟨key, v⟩ := m
    have htake : f.take origin key v = .ok { f with others := f.others ++ [(some key, v)] } := by
      have hkept : f.take origin key v = f.keep origin key v := by
        have hkey := hkeys.1
        simp only [kindKeys, List.mem_cons, List.not_mem_nil, or_false] at hkey
        rcases hkey with rfl | rfl | rfl <;> rfl
      rw [hkept, keep]
      cases origin with
      | text =>
        rw [if_pos rfl, hkeep.1]
        rfl
      | tree => rfl
    have hrest := (Takes.single htake).append (ih hkeys.2 hkeep.2)
    rwa [List.append_assoc] at hrest

/-- The members of the kind are strings, or an object of numbers. -/
theorem takes_kind (kind : NodeKind) :
    Takes origin f kind.toMembers { f with others := f.others ++ .ofList kind.toMembers } := by
  apply takes_others
  · cases kind <;> simp [NodeKind.toMembers, kindKeys]
  · cases kind with
    | operator name attributes =>
      obtain ⟨b, e, s⟩ := attributes
      simp only [NodeKind.toMembers, List.forall_mem_cons]
      refine ⟨rfl, rfl, ?_, List.forall_mem_nil _⟩
      cases b <;> cases e <;> cases s <;> rfl
    | _ => simp only [NodeKind.toMembers, List.forall_mem_singleton]; rfl

/-- What is read of a node that has been written. -/
def ofNode (n : Node) : Fields where
  uid := some n.uid
  name := n.name.map some
  shape := some n.shape
  elementType := some n.elementType
  quantization := n.quantization.map some
  recurrenceOffset := n.recurrenceOffset.map some
  operands := some n.operands
  others := .ofList n.kind.toMembers

theorem takes_toJson {n : Node} (h : n.value = none) :
    ∃ members, n.toJson = .ofMembers members ∧ Takes origin {} members (ofNode n) := by
  refine ⟨_, rfl, ?_⟩
  have huid : Takes origin {} [("uid", .string n.uid)] { uid := some n.uid } := .single rfl
  have hname := huid.append (takes_name rfl n.name)
  have hkind := hname.append (takes_kind n.kind)
  have htype := hkind.append
    ((takes_shape rfl n.shape).append (takes_elementType rfl n.elementType))
  have hoffset := (htype.append (takes_quantization rfl n.quantization)).append
    (takes_recurrenceOffset rfl n.recurrenceOffset)
  rw [h]
  exact (hoffset.append (takes_operands rfl n.operands)).append rfl

theorem finish_ofNode {n : Node} (h : n.value = none) : (ofNode n).finish = .ok n := by
  obtain ⟨uid, name, kind, shape, type, quantization, offset, operands, value⟩ := n
  cases h
  show (do
    let kind ← NodeKind.ofMembers (.ofList kind.toMembers)
    return Node.mk uid ((name.map some).getD none) kind shape type
      ((quantization.map some).getD none) ((offset.map some).getD none) operands none) = _
  rw [NodeKind.ofMembers_toMembers]
  cases name <;> cases quantization <;> cases offset <;> rfl

end Node.Fields

theorem Node.ofJson_toJson {n : Node} (h : n.value = none) (origin : Origin) :
    Node.ofJson origin n.toJson = .ok n := by
  obtain ⟨members, hmembers, htakes⟩ := Fields.takes_toJson h
  rw [ofJson, hmembers, Value.foldMembers_ofMembers, htakes]
  exact Fields.finish_ofNode h

theorem Graph.ofJson_toJson {g : Graph} (h : ∀ n ∈ g.nodes, n.value = none) (origin : Origin) :
    Graph.ofJson origin g.toJson = .ok g := by
  have hnodes : nodesOfJson origin (.array (g.nodes.map Node.toJson)) = .ok g := by
    rw [nodesOfJson, Json.asList_map fun n hn => Node.ofJson_toJson (h n hn) origin]
    exact congrArg (fun nodes => Except.ok (Graph.mk nodes)) (List.map_id' g.nodes)
  have hmembers : g.toJson.foldMembers (takeMember origin) none = .ok (some g) := by
    rw [toJson, Value.foldMembers_ofMembers, List.foldlM_cons, takeMember, Json.once_none hnodes]
    rfl
  rw [toJson, Value.ofMembers] at hmembers ⊢
  simp only [ofJson, hmembers]
  rfl

/-! ### Texts -/

namespace Json.Value.Plain

theorem ofUInt64 (x : UInt64) : Plain (.int x.toNat) := by
  have hlt := x.toNat_lt
  exact .int (by omega) (by omega)

theorem ofUInt32 (x : UInt32) : Plain (.int x.toNat) := by
  have hlt := x.toNat_lt
  exact .int (by omega) (by omega)

theorem ofInt64 (x : Int64) : Plain (.int x.toInt) := by
  have hle := x.le_toInt
  have hlt := x.toInt_lt
  exact .int hle (by omega)

/-- The value of a member is plain, if the member is there. -/
theorem present {α : Type} {toJson : α → Value} (h : ∀ a, Plain (toJson a)) (key : String)
    (x : Option α) : ∀ m ∈ Node.present key toJson x, Plain m.2 := by
  intro m hm
  obtain ⟨a, -, rfl⟩ := List.mem_map.mp hm
  exact h a

theorem wordList (xs : List UInt64) : Plain (Node.wordList xs) :=
  .array (List.forall_mem_map.mpr fun x _ => ofUInt64 x)

theorem quantization (q : Quantization) : Plain q.toJson := by
  refine .ofMembers ?_
  simp only [List.forall_mem_cons]
  exact ⟨ofUInt32 q.bits, ofUInt32 q.reservedBits, List.forall_mem_nil _⟩

theorem kind (k : NodeKind) : ∀ m ∈ k.toMembers, Plain m.2 := by
  cases k with
  | operator name attributes =>
    simp only [NodeKind.toMembers, List.forall_mem_cons]
    refine ⟨.string _, .string name, .ofMembers ?_, List.forall_mem_nil _⟩
    simp only [Attributes.toMembers, List.forall_mem_append]
    refine ⟨⟨?_, ?_⟩, ?_⟩
    · exact present ofInt64 _ attributes.beginIndex
    · exact present ofInt64 _ attributes.endIndex
    · exact present ofInt64 _ attributes.stride
  | _ =>
    simp only [NodeKind.toMembers, List.forall_mem_singleton]
    exact .string _

theorem node {n : Node} (h : n.value = none) : Plain n.toJson := by
  rw [Node.toJson, h]
  refine .ofMembers ?_
  simp only [List.forall_mem_append, List.forall_mem_cons]
  have hnil := List.forall_mem_nil fun m : String × Value => m.2.Plain
  refine ⟨⟨⟨⟨⟨⟨⟨⟨.string n.uid, hnil⟩, ?_⟩, kind n.kind⟩, ?_⟩, ?_⟩, ?_⟩, ?_⟩, hnil⟩
  · exact present .string _ n.name
  · exact ⟨wordList n.shape, .string _, hnil⟩
  · exact present quantization _ n.quantization
  · exact present ofUInt64 _ n.recurrenceOffset
  · exact ⟨wordList n.operands, hnil⟩

theorem graph {g : Graph} (h : ∀ n ∈ g.nodes, n.value = none) : Plain g.toJson := by
  refine .ofMembers (List.forall_mem_singleton.mpr (.array ?_))
  exact List.forall_mem_map.mpr fun n hn => node (h n hn)

end Json.Value.Plain

namespace Graph

theorem read_write {g : Graph} (h : ∀ n ∈ g.nodes, n.value = none) (float : Binary64 → String) :
    read (g.write float) = .ok g := by
  rw [read, write, Json.read_write (.graph h), Json.Document.decode, ofJson_toJson h]
  rfl

/-- The graph without the values of its leaves. -/
def withoutValues (g : Graph) : Graph := ⟨g.nodes.map fun n => { n with value := none }⟩

theorem value_withoutValues {g : Graph} : ∀ n ∈ g.withoutValues.nodes, n.value = none := by
  intro n hn
  obtain ⟨m, -, rfl⟩ := List.mem_map.mp hn
  rfl

/-- Reading undoes writing. A graph whose nodes have no values is what is read of its tree and of its
    text, however numbers with a fraction are written. So is every graph that was read, from a text or
    from a tree of any form, when its values have been dropped. -/
theorem decode_encode (float : Binary64 → String) :
    (∀ g : Graph, (∀ n ∈ g.nodes, n.value = none) →
      read (g.write float) = .ok g ∧ ∀ origin, ofJson origin g.toJson = .ok g) ∧
    (∀ text g, read text = .ok g → read (g.withoutValues.write float) = .ok g.withoutValues) ∧
    ∀ origin v g, ofJson origin v = .ok g →
      ofJson origin g.withoutValues.toJson = .ok g.withoutValues := by
  refine ⟨?_, ?_, ?_⟩
  · intro g h
    exact ⟨read_write h float, ofJson_toJson h⟩
  · intro _ g _
    exact read_write value_withoutValues float
  · intro origin _ g _
    exact ofJson_toJson value_withoutValues origin

/-- A document that gives a graph, a quantization and attributes by position, with its fields in
    another order than they are written in, `null` for a name and for an attribute, a field that no
    node has, and values. -/
def unusualDocument : String :=
  "[[\x7b\"value\": [1, -0.5], \"operands\": [7], \"unit\": [null], \"quantized\": [8],
    \"attributes\": [-1, null], \"op_name\": \"Slice\", \"name\": null, \"uid\": \"s\",
    \"type\": \"operator\"\x7d]]"

/-- The graph of `unusualDocument`. -/
def unusual : Graph := ⟨[{
  uid := "s"
  kind := .operator "Slice" { beginIndex := some (-1) }
  quantization := some ⟨8, 0⟩
  operands := [7]
  value := some [⟨0x3FF0000000000000⟩, ⟨0xBFE0000000000000⟩] }]⟩

set_option maxRecDepth 2048 in
theorem unusual_decode_encode :
    read unusualDocument = .ok unusual ∧
      ofJson .text (Json.read unusualDocument).value = .ok unusual ∧
      unusual.withoutValues ≠ unusual ∧ (∀ n ∈ unusual.withoutValues.nodes, n.value = none) ∧
      read (unusual.withoutValues.write Binary64.toFixed) = .ok unusual.withoutValues ∧
      ofJson .text unusual.withoutValues.toJson = .ok unusual.withoutValues ∧
      ofJson .tree unusual.withoutValues.toJson = .ok unusual.withoutValues := by
  have hjson : Json.read unusualDocument = Json.readChars _ := Json.read_ofList _
  have hread : read unusualDocument = .ok unusual := by
    rw [read, hjson]
    decide +kernel
  have htree : ofJson .text (Json.read unusualDocument).value = .ok unusual := by
    rw [hjson]
    decide +kernel
  have hfree : ∀ n ∈ unusual.withoutValues.nodes, n.value = none := by decide
  obtain ⟨hgraph, htext, hdropped⟩ := decode_encode Binary64.toFixed
  exact ⟨hread, htree, by decide, hfree, htext _ _ hread, hdropped _ _ _ htree,
    (hgraph _ hfree).2 .tree⟩

example : (Graph.mk [{ uid := "s", kind := .input }]).write Binary64.toFixed =
    "\x7b\"nodes\":[\x7b\"uid\":\"s\",\"type\":\"input\",\"shape\":[],\"dtype\":\"f32\"," ++
      "\"operands\":[]\x7d]\x7d" := by
  decide +kernel

end Graph

end EvaluatorGen
