import Mathlib.Data.List.Basic
import Mathlib.Data.Option.Basic
import Mathlib.Algebra.Order.Group.Int

/-!
# JSON documents and how Go decodes them into structs

A body is `none` when it does not start with a complete JSON value: the decoder
then reports an error and touches nothing. Otherwise it walks the value and
stores what fits; a part of the wrong type is skipped, the error is kept and
the walk goes on, so a failed decoding may leave a partly filled struct.
-/

namespace NexFi.GoJson

/-- A number as it is spelled: sign, integer part, fraction digits, exponent. -/
structure Number where
  negative : Bool
  digits : ℕ
  fraction : Option (List (Fin 10))
  exponent : Option ℤ
  deriving DecidableEq

inductive Json
  | null
  | bool (b : Bool)
  | num (n : Number)
  | str (s : String)
  | arr (items : List Json)
  | obj (fields : List (String × Json))

abbrev Body := Option Json

structure Decoded (V : Type) where
  value : V
  failed : Bool
  deriving DecidableEq

/-- Key matching ignores case, with the two non-ASCII letters that fold to
ASCII ones. -/
def foldChar (c : Char) : Char :=
  if c = 'ſ' then 's' else if c = 'K' then 'k' else c.toLower

def foldEq (a b : String) : Bool := a.toList.map foldChar = b.toList.map foldChar

/-- The width of Go's `int`. -/
structure IntSize where
  bits : ℕ
  wide : bits = 32 ∨ bits = 64

def IntSize.Fits (w : IntSize) (n : ℤ) : Prop := -2 ^ (w.bits - 1) ≤ n ∧ n < 2 ^ (w.bits - 1)

instance (w : IntSize) (n : ℤ) : Decidable (w.Fits n) := inferInstanceAs (Decidable (_ ∧ _))

def Number.toInt (n : Number) : ℤ := if n.negative then -n.digits else n.digits

def Number.ofInt (n : ℤ) : Number := ⟨n < 0, n.natAbs, none, none⟩

theorem Number.toInt_ofInt (n : ℤ) : (Number.ofInt n).toInt = n := by
  simp only [Number.ofInt, Number.toInt, decide_eq_true_eq]
  split_ifs <;> omega

def decodeInt (w : IntSize) (old : ℤ) : Json → Decoded ℤ
  | .null => ⟨old, false⟩
  | .num n =>
    if n.fraction = none ∧ n.exponent = none ∧ w.Fits n.toInt then ⟨n.toInt, false⟩ else ⟨old, true⟩
  | _ => ⟨old, true⟩

def decodeString (old : String) : Json → Decoded String
  | .null => ⟨old, false⟩
  | .str s => ⟨s, false⟩
  | _ => ⟨old, true⟩

variable {V : Type}

/-- A struct: every matching key is decoded into its field, in input order. -/
def decodeStruct (field : String → Option (V → Json → Decoded V)) (old : V) : Json → Decoded V
  | .null => ⟨old, false⟩
  | .obj fields =>
    fields.foldl (fun acc kv =>
      match field kv.1 with
      | none => acc
      | some decode =>
        let next := decode acc.value kv.2
        ⟨next.value, acc.failed || next.failed⟩) ⟨old, false⟩
  | _ => ⟨old, true⟩

/-- A slice: `none` is nil. Elements are decoded into zero values. -/
def decodeSlice (zero : V) (decode : V → Json → Decoded V) (old : Option (List V)) :
    Json → Decoded (Option (List V))
  | .null => ⟨none, false⟩
  | .arr items =>
    let elements := items.map (decode zero)
    ⟨some (elements.map Decoded.value), elements.any Decoded.failed⟩
  | _ => ⟨old, true⟩

/-- `json.NewDecoder(body).Decode` into a zero value. -/
def decodeBody (zero : V) (decode : V → Json → Decoded V) : Body → Decoded V
  | none => ⟨zero, true⟩
  | some json => decode zero json

structure Position where
  x : ℤ
  y : ℤ
  deriving DecidableEq

structure Node where
  name : String
  position : Position
  deriving DecidableEq

structure VisPositionData where
  nodes : Option (List Node)
  deriving DecidableEq

structure ConfigData where
  title : String
  deriving DecidableEq

def decodePosition (w : IntSize) : Position → Json → Decoded Position :=
  decodeStruct fun key =>
    if foldEq key "x" then
      some fun p j => let d := decodeInt w p.x j; ⟨{ p with x := d.value }, d.failed⟩
    else if foldEq key "y" then
      some fun p j => let d := decodeInt w p.y j; ⟨{ p with y := d.value }, d.failed⟩
    else none

def decodeNode (w : IntSize) : Node → Json → Decoded Node :=
  decodeStruct fun key =>
    if foldEq key "name" then
      some fun n j => let d := decodeString n.name j; ⟨{ n with name := d.value }, d.failed⟩
    else if foldEq key "position" then
      some fun n j =>
        let d := decodePosition w n.position j
        ⟨{ n with position := d.value }, d.failed⟩
    else none

def decodeVisPositionData (w : IntSize) : VisPositionData → Json → Decoded VisPositionData :=
  decodeStruct fun key =>
    if foldEq key "nodes" then
      some fun v j =>
        let d := decodeSlice ⟨"", ⟨0, 0⟩⟩ (decodeNode w) v.nodes j
        ⟨⟨d.value⟩, d.failed⟩
    else none

def decodeConfigData : ConfigData → Json → Decoded ConfigData :=
  decodeStruct fun key =>
    if foldEq key "title" then
      some fun c j => let d := decodeString c.title j; ⟨⟨d.value⟩, d.failed⟩
    else none

def marshalPosition (p : Position) : Json :=
  .obj [("x", .num (.ofInt p.x)), ("y", .num (.ofInt p.y))]

def marshalNode (n : Node) : Json :=
  .obj [("name", .str n.name), ("position", marshalPosition n.position)]

def marshalVisPositionData (v : VisPositionData) : Json :=
  .obj [("nodes", match v.nodes with | none => .null | some nodes => .arr (nodes.map marshalNode))]

def marshalConfigData (c : ConfigData) : Json := .obj [("title", .str c.title)]

theorem decodeInt_ofInt {w : IntSize} {n : ℤ} (h : w.Fits n) (old : ℤ) :
    decodeInt w old (.num (.ofInt n)) = ⟨n, false⟩ := by
  have hint : (Number.ofInt n).toInt = n := Number.toInt_ofInt n
  simp only [decodeInt, hint]
  rw [if_pos ⟨rfl, rfl, h⟩]

def Position.Fits (w : IntSize) (p : Position) : Prop := w.Fits p.x ∧ w.Fits p.y

theorem decodePosition_marshal {w : IntSize} {p : Position} (h : p.Fits w) (old : Position) :
    decodePosition w old (marshalPosition p) = ⟨p, false⟩ := by
  have hx : foldEq "x" "x" = true := by decide
  have hyx : foldEq "y" "x" = false := by decide
  have hy : foldEq "y" "y" = true := by decide
  simp [decodePosition, decodeStruct, marshalPosition, hx, hyx, hy, decodeInt_ofInt h.1,
    decodeInt_ofInt h.2]

theorem decodeNode_marshal {w : IntSize} {n : Node} (h : n.position.Fits w) (old : Node) :
    decodeNode w old (marshalNode n) = ⟨n, false⟩ := by
  have hn : foldEq "name" "name" = true := by decide
  have hpn : foldEq "position" "name" = false := by decide
  have hp : foldEq "position" "position" = true := by decide
  simp [decodeNode, decodeStruct, marshalNode, hn, hpn, hp, decodeString, decodePosition_marshal h]

/-- Decoding undoes encoding for coordinates that fit Go's `int`. -/
theorem decodeVisPositionData_marshal {w : IntSize} {nodes : List Node}
    (h : ∀ n ∈ nodes, n.position.Fits w) (old : VisPositionData) :
    decodeVisPositionData w old (marshalVisPositionData ⟨some nodes⟩) = ⟨⟨some nodes⟩, false⟩ := by
  have hk : foldEq "nodes" "nodes" = true := by decide
  have helements : (nodes.map marshalNode).map (decodeNode w ⟨"", ⟨0, 0⟩⟩) =
      nodes.map fun n => (⟨n, false⟩ : Decoded Node) := by
    rw [List.map_map]
    exact List.map_congr_left fun n hn => decodeNode_marshal (h n hn) _
  simp only [decodeVisPositionData, decodeStruct, marshalVisPositionData, hk, if_true,
    List.foldl_cons, List.foldl_nil, decodeSlice, helements]
  simp [Function.comp_def]

end NexFi.GoJson
